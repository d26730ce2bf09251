import ImageAudit.Proofs.Bytes.Content
import ImageAudit.Proofs.Jpeg.Definitions
import ImageAudit.Proofs.Jpeg.WellFormed

/-! Frame headers. A start-of-frame payload is accepted exactly if it is the stored form of a
well-formed frame, and that frame is the one that is kept. -/
namespace ImageAudit.Jpeg

structure FrameComponent.Fits (c : FrameComponent) : Prop where
  id_lt : c.id < 256
  horizontal_lt : c.horizontal < 16
  vertical_lt : c.vertical < 16
  selector_lt : c.quantizationSelector < 256

def FrameComponent.bytes (c : FrameComponent) : List UInt8 :=
  [UInt8.ofNat c.id, nibbles c.horizontal c.vertical, UInt8.ofNat c.quantizationSelector]

theorem FrameComponent.length_bytes (c : FrameComponent) : c.bytes.length = 3 := rfl

def Frame.fieldBytes (precision height width count : Nat) : List UInt8 :=
  UInt8.ofNat precision :: (ByteOrder.bigEndian.encode 2 height ++
    (ByteOrder.bigEndian.encode 2 width ++ [UInt8.ofNat count]))

def Frame.payload (f : Frame) : List UInt8 :=
  fieldBytes f.precision f.height f.width f.components.length ++
    f.components.flatMap FrameComponent.bytes

structure Frame.Fits (f : Frame) : Prop where
  precision_lt : f.precision < 256
  height_lt : f.height < 65536
  width_lt : f.width < 65536
  count_lt : f.components.length < 256
  component : ∀ c ∈ f.components, c.Fits

/-- A frame that a start-of-frame marker `id` may announce. -/
structure Frame.IsHeader (id : Nat) (f : Frame) : Prop where
  marker : f.marker = id
  wellFormed : f.WellFormed
  fits : f.Fits
  scans : f.scans = []

variable {cursor : Segment} {more : List UInt8}

theorem FrameClass.exists_ofMarker? {id : Nat} (h : MarkerId.isStartOfFrame id = true) :
    ∃ frameClass, ofMarker? id = some frameClass := by
  have hids : ∀ second < 16, MarkerId.isStartOfFrame (0xFFC0 + second) = true →
      (ofMarker? (0xFFC0 + second)).isSome = true := by decide
  have hrange : 0xFFC0 ≤ id ∧ id ≤ 0xFFCF := by
    simp only [MarkerId.isStartOfFrame, Bool.and_eq_true, decide_eq_true_eq] at h
    exact h.1.1.1
  obtain ⟨second, rfl⟩ := Nat.exists_eq_add_of_le hrange.1
  exact Option.isSome_iff_exists.mp (hids second (by omega) h)

theorem uint_of_ofNat {n : Nat} (hn : n < 256) (h : cursor.rest = UInt8.ofNat n :: more) :
    (cursor.uint 1).1 = n ∧ (cursor.uint 1).2.rest = more := by
  obtain ⟨hvalue, hmore⟩ := Segment.uint_one_of_rest h
  exact ⟨hvalue.trans (UInt8.toNat_ofNat_of_lt' hn), hmore⟩

namespace Frame

variable {f : Frame} {m : Marker}

/-- A stored component is read back. -/
theorem readComponent_of_bytes {c : FrameComponent} (hc : c.Fits)
    (h : cursor.rest = c.bytes ++ more) :
    (readComponent cursor).1 = c ∧ (readComponent cursor).2.rest = more := by
  obtain ⟨hid, hsampling⟩ := uint_of_ofNat hc.id_lt h
  obtain ⟨hhorizontal, hvertical, hlast⟩ := uint_of_nibbles hc.horizontal_lt hc.vertical_lt hsampling
  obtain ⟨hselector, hmore⟩ := uint_of_ofNat hc.selector_lt hlast
  refine ⟨?_, hmore⟩
  rw [readComponent]
  dsimp only
  rw [hid, hhorizontal, hvertical, hselector]

/-- Any three bytes store a component. -/
theorem exists_component (first second third : UInt8) :
    ∃ c : FrameComponent, c.Fits ∧ c.bytes = [first, second, third] := by
  have hhigh : second.toNat / 16 < 16 := Nat.div_lt_of_lt_mul second.toNat_lt
  have hlow : second.toNat % 16 < 16 := Nat.mod_lt _ (by decide)
  refine ⟨⟨first.toNat, second.toNat / 16, second.toNat % 16, third.toNat⟩,
    ⟨first.toNat_lt, hhigh, hlow, third.toNat_lt⟩, ?_⟩
  rw [FrameComponent.bytes, UInt8.ofNat_toNat, UInt8.ofNat_toNat, nibbles_div_mod]

theorem exists_components {bytes : List UInt8} {count : Nat} (h : bytes.length = 3 * count) :
    ∃ components : List FrameComponent, components.length = count ∧
      (∀ c ∈ components, c.Fits) ∧ bytes = components.flatMap FrameComponent.bytes := by
  induction count generalizing bytes with
  | zero => exact ⟨[], rfl, List.forall_mem_nil _, List.eq_nil_of_length_eq_zero h⟩
  | succ count ih =>
    match bytes with
    | first :: second :: third :: bytes =>
      simp only [List.length_cons] at h
      obtain ⟨c, hc, hbytes⟩ := exists_component first second third
      obtain ⟨components, hlength, hfits, rfl⟩ := ih (by omega : bytes.length = 3 * count)
      refine ⟨c :: components, by rw [List.length_cons, hlength],
        List.forall_mem_cons.mpr ⟨hc, hfits⟩, ?_⟩
      rw [List.flatMap_cons, hbytes]
      rfl
    | [] | [_] | [_, _] => exact absurd h (by simp only [List.length_cons, List.length_nil]; omega)

/-- Stored components are read back. Nothing is found in them if they are well-formed and no id
occurs twice. -/
theorem readComponents_of_bytes {components : List FrameComponent} (hfits : ∀ c ∈ components, c.Fits)
    (hdistinct : (f.components.map (·.id)).Nodup)
    (h : cursor.rest = components.flatMap FrameComponent.bytes ++ more) :
    ((readComponents components.length f cursor).2.2 = [] ↔
      (∀ c ∈ components, c.WellFormed f.frameClass) ∧
        ((f.components ++ components).map (·.id)).Nodup) ∧
    ((readComponents components.length f cursor).2.2 = [] →
      (readComponents components.length f cursor).1 =
        { f with components := f.components ++ components }) := by
  induction components generalizing f cursor with
  | nil => simpa [readComponents] using hdistinct
  | cons c components ih =>
    rw [List.forall_mem_cons] at hfits
    rw [List.flatMap_cons, List.append_assoc] at h
    obtain ⟨hread, hnext⟩ := readComponent_of_bytes hfits.1 h
    simp only [List.length_cons, readComponents, hread, List.append_eq_nil_iff,
      componentFindings_eq_nil_iff, List.forall_mem_cons]
    by_cases hnew : ∀ d ∈ f.components, d.id ≠ c.id
    · have hadded : ((f.components ++ [c]).map (·.id)).Nodup := by
        simpa [List.nodup_append, hdistinct] using hnew
      obtain ⟨hiff, hkept⟩ := ih (f := { f with components := f.components ++ [c] }) hfits.2
        hadded hnext
      rw [addComponent_of_new hnew]
      simp only [List.append_assoc, List.singleton_append] at hiff hkept
      refine ⟨?_, fun hclean => hkept hclean.2⟩
      rw [hiff, and_iff_left hnew, and_assoc]
    · -- a component whose id is taken is found fault with, and the id stands twice in the list
      have htwice : ¬ ((f.components ++ c :: components).map (·.id)).Nodup := by
        intro hnodup
        rw [List.map_append, List.map_cons, List.nodup_append] at hnodup
        exact hnew fun d hd => hnodup.2.2 _ (List.mem_map_of_mem hd) _ List.mem_cons_self
      exact ⟨⟨fun hclean => absurd hclean.1.2 hnew, fun hall => absurd hall.2 htwice⟩,
        fun hclean => absurd hclean.1.2 hnew⟩

/-- The fields before the components are read back. -/
theorem ofPayload_of_fieldBytes (frameClass : FrameClass) {precision height width count : Nat}
    (horder : m.segment.order = .bigEndian) (hprecision : precision < 256) (hheight : height < 65536)
    (hwidth : width < 65536) (hcount : count < 256)
    (hrest : m.segment.rest = fieldBytes precision height width count ++ more) :
    ∃ cursor : Segment, cursor.rest = more ∧ ofPayload m frameClass =
      let frame : Frame := ⟨m.id, frameClass, precision, height, width, [], []⟩
      let findings := frame.headerFindings count
      if m.length.getD 0 != markerSize + headerSize + 3 * count then
        (frame, cursor, findings ++
          [.invalidFrameLength count (markerSize + headerSize + 3 * count) (m.length.getD 0)])
      else
        let components := readComponents count frame cursor
        (components.1, components.2.1, findings ++ components.2.2) := by
  rw [fieldBytes, List.cons_append, List.append_assoc, List.append_assoc] at hrest
  obtain ⟨hp, hrest⟩ := uint_of_ofNat hprecision hrest
  rw [← horder, ← m.segment.order_uint 1] at hrest
  obtain ⟨hh, hrest⟩ := Segment.uint_of_encode hrest hheight
  rw [← (m.segment.uint 1).2.order_uint 2] at hrest
  obtain ⟨hw, hrest⟩ := Segment.uint_of_encode hrest hwidth
  obtain ⟨hn, hrest⟩ := uint_of_ofNat hcount hrest
  refine ⟨_, hrest, ?_⟩
  rw [ofPayload]
  dsimp only
  rw [hp, hh, hw, hn]

theorem length_payload (f : Frame) : f.payload.length = headerSize + 3 * f.components.length := by
  rw [payload, List.length_append,
    length_flatMap_of_forall fun c _ => FrameComponent.length_bytes c]
  rfl

/-- What a frame without scans needs beyond a fitting marker. -/
theorem wellFormed_iff (hclass : FrameClass.ofMarker? f.marker = some f.frameClass)
    (hcount : f.components.length < 256) (hscans : f.scans = []) :
    f.WellFormed ↔ f.headerFindings f.components.length = [] ∧
      (∀ c ∈ f.components, c.WellFormed f.frameClass) ∧ (f.components.map (·.id)).Nodup := by
  rw [headerFindings_eq_nil_iff]
  constructor
  · intro h
    refine ⟨⟨h.precision, Nat.one_le_iff_ne_zero.mp h.width_pos, h.components_pos, ?_⟩,
      h.component, h.distinct⟩
    intro hprogressive
    have hle := h.components_le
    rwa [if_pos hprogressive] at hle
  · rintro ⟨⟨hprecision, hwidth, hpos, hprogressive⟩, hcomponent, hdistinct⟩
    refine ⟨hclass, hprecision, Nat.one_le_iff_ne_zero.mpr hwidth, hpos, ?_, hdistinct, hcomponent,
      by simp [hscans]⟩
    split
    · next h => exact hprogressive h
    · exact Nat.le_of_lt_succ hcount

/-- A stored frame is accepted if it is well-formed, and it is the one that is kept. -/
theorem ofPayload_of_payload (horder : m.segment.order = .bigEndian)
    (hlength : m.length = some (m.segment.left + markerSize)) (hfits : f.Fits)
    (hmarker : f.marker = m.id) (hclass : FrameClass.ofMarker? m.id = some f.frameClass)
    (hscans : f.scans = []) (hrest : m.segment.rest = f.payload) :
    ((ofPayload m f.frameClass).2.2 = [] ↔ f.WellFormed) ∧
      ((ofPayload m f.frameClass).2.2 = [] → (ofPayload m f.frameClass).1 = f) := by
  have hexpected : ¬ (m.length.getD 0 != markerSize + headerSize + 3 * f.components.length) = true := by
    rw [hlength, ← Segment.length_rest, hrest, length_payload, bne_iff_ne, not_not, Option.getD_some]
    omega
  obtain ⟨cursor, hcursor, hread⟩ := ofPayload_of_fieldBytes f.frameClass horder
    hfits.precision_lt hfits.height_lt hfits.width_lt hfits.count_lt hrest
  dsimp only at hread
  rw [if_neg hexpected] at hread
  rw [← List.append_nil (f.components.flatMap _)] at hcursor
  obtain ⟨hiff, hkept⟩ := readComponents_of_bytes
    (f := ⟨m.id, f.frameClass, f.precision, f.height, f.width, [], []⟩) hfits.component
    List.nodup_nil hcursor
  rw [hread, List.append_eq_nil_iff, wellFormed_iff (hmarker ▸ hclass) hfits.count_lt hscans]
  refine ⟨and_congr_right fun _ => hiff, fun hclean => ?_⟩
  rw [hkept hclean.2, ← hmarker, ← hscans]
  rfl

/-- Any two bytes store a number. -/
theorem exists_encode_two (first second : UInt8) :
    ∃ n < 65536, ByteOrder.bigEndian.encode 2 n = [first, second] := by
  have hlt := ByteOrder.bigEndian.decode_lt [first, second]
  have hpow : Nat.pow 256 2 = 65536 := by decide
  exact ⟨_, Nat.lt_of_lt_of_eq hlt hpow, ByteOrder.bigEndian.encode_decode [first, second]⟩

/-- Any six bytes store the fields before the components. -/
theorem exists_fieldBytes {bytes : List UInt8} (h : headerSize ≤ bytes.length) :
    ∃ precision height width count more, precision < 256 ∧ height < 65536 ∧ width < 65536 ∧
      count < 256 ∧ bytes = fieldBytes precision height width count ++ more := by
  match bytes with
  | precision :: height₁ :: height₂ :: width₁ :: width₂ :: count :: more =>
    obtain ⟨height, hheight, hheightBytes⟩ := exists_encode_two height₁ height₂
    obtain ⟨width, hwidth, hwidthBytes⟩ := exists_encode_two width₁ width₂
    refine ⟨precision.toNat, height, width, count.toNat, more, precision.toNat_lt, hheight, hwidth,
      count.toNat_lt, ?_⟩
    rw [fieldBytes, hheightBytes, hwidthBytes, UInt8.ofNat_toNat, UInt8.ofNat_toNat]
    rfl
  | [] | [_] | [_, _] | [_, _, _] | [_, _, _, _] | [_, _, _, _, _] =>
    exact absurd h (by simp [headerSize])

/-- A payload that is accepted stores a frame. -/
theorem exists_payload {frameClass : FrameClass} (horder : m.segment.order = .bigEndian)
    (hlength : m.length = some (m.segment.left + markerSize)) (hleft : headerSize ≤ m.segment.left)
    (hclean : (ofPayload m frameClass).2.2 = []) :
    ∃ f : Frame, f.Fits ∧ f.marker = m.id ∧ f.frameClass = frameClass ∧ f.scans = [] ∧
      m.segment.rest = f.payload := by
  rw [← Segment.length_rest] at hleft
  obtain ⟨precision, height, width, count, more, hprecision, hheight, hwidth, hcount, hrest⟩ :=
    exists_fieldBytes hleft
  obtain ⟨cursor, hcursor, hread⟩ :=
    ofPayload_of_fieldBytes frameClass horder hprecision hheight hwidth hcount hrest
  dsimp only at hread
  by_cases hexpected :
      (m.length.getD 0 != markerSize + headerSize + 3 * count) = true
  · rw [hread, if_pos hexpected] at hclean
    exact absurd hclean (List.append_ne_nil_of_right_ne_nil _ (List.cons_ne_nil _ _))
  · -- the length that was announced leaves three bytes for each component
    have hmore : more.length = 3 * count := by
      rw [hlength, ← Segment.length_rest, hrest, bne_iff_ne, not_not, Option.getD_some,
        List.length_append] at hexpected
      have hfields : (fieldBytes precision height width count).length = headerSize := rfl
      omega
    obtain ⟨components, hcomponents, hfits, hbytes⟩ := exists_components hmore
    refine ⟨⟨m.id, frameClass, precision, height, width, components, []⟩,
      ⟨hprecision, hheight, hwidth, hcomponents ▸ hcount, hfits⟩, rfl, rfl, rfl, ?_⟩
    rw [hrest, payload, hcomponents, hbytes]

theorem payloadLength_eq (hlength : m.length = some (m.segment.left + markerSize)) :
    m.payloadLength = m.segment.left := by
  rw [Marker.payloadLength, hlength, Option.getD_some, Nat.add_sub_cancel]

/-- A second frame is refused whatever its payload is. -/
theorem read_some (m : Marker) (g : Frame) :
    (read m (some g)).1 = some g ∧ .multipleFrames ∈ (read m (some g)).2.2 := by
  rw [read]
  exact ⟨rfl, List.mem_cons_self⟩

theorem read_none {frameClass : FrameClass} (hclass : FrameClass.ofMarker? m.id = some frameClass)
    (h : headerSize ≤ m.payloadLength) :
    (read m none).1 = some (ofPayload m frameClass).1 ∧
      (read m none).2.2 = (ofPayload m frameClass).2.2 := by
  rw [read]
  dsimp only
  rw [if_neg (Nat.not_lt_of_le h), hclass]
  exact ⟨rfl, rfl⟩

theorem findings_read_of_short (h : m.payloadLength < headerSize) : (read m none).2.2 ≠ [] := by
  rw [read]
  dsimp only
  rw [if_pos h]
  exact List.cons_ne_nil _ _

/-- A header is kept. -/
theorem read_header (horder : m.segment.order = .bigEndian)
    (hlength : m.length = some (m.segment.left + markerSize)) (hf : f.IsHeader m.id)
    (hrest : m.segment.rest = f.payload) :
    (read m none).1 = some f ∧ (read m none).2.2 = [] := by
  have hclass : FrameClass.ofMarker? m.id = some f.frameClass :=
    hf.marker ▸ hf.wellFormed.frameClass
  have hleft : headerSize ≤ m.payloadLength := by
    rw [payloadLength_eq hlength, ← Segment.length_rest, hrest, length_payload]
    exact Nat.le_add_right _ _
  obtain ⟨hframe, hfindings⟩ := read_none hclass hleft
  obtain ⟨haccepts, hkeeps⟩ := ofPayload_of_payload horder hlength hf.fits hf.marker hclass
    hf.scans hrest
  have hnil := haccepts.mpr hf.wellFormed
  rw [hframe, hfindings, hkeeps hnil]
  exact ⟨rfl, hnil⟩

/-- What is accepted is a header. -/
theorem exists_header (hmarker : MarkerId.isStartOfFrame m.id = true)
    (horder : m.segment.order = .bigEndian)
    (hlength : m.length = some (m.segment.left + markerSize)) (hclean : (read m none).2.2 = []) :
    ∃ f : Frame, f.IsHeader m.id ∧ m.segment.rest = f.payload := by
  obtain ⟨frameClass, hclass⟩ := FrameClass.exists_ofMarker? hmarker
  have hleft : headerSize ≤ m.payloadLength :=
    Nat.le_of_not_lt fun hshort => findings_read_of_short hshort hclean
  rw [(read_none hclass hleft).2] at hclean
  rw [payloadLength_eq hlength] at hleft
  obtain ⟨f, hfits, hid, rfl, hscans, hrest⟩ := exists_payload horder hlength hleft hclean
  obtain ⟨haccepts, -⟩ := ofPayload_of_payload horder hlength hfits hid hclass hscans hrest
  exact ⟨f, ⟨hid, haccepts.mp hclean, hfits, hscans⟩, hrest⟩

def gray : Frame := ⟨0xFFC0, .baseline, 8, 9, 16, [⟨1, 2, 1, 0⟩], []⟩

def grayMarker : Marker :=
  ⟨0xFFC0, some 11, 2, 1, ⟨6, ⟨gray.payload.toArray⟩, .bigEndian, 0⟩⟩

theorem isHeader_gray : gray.IsHeader 0xFFC0 where
  marker := rfl
  wellFormed := (wellFormed_iff rfl (by decide) rfl).mpr
    ⟨by decide, List.forall_mem_singleton.mpr ⟨by decide, by decide, by decide, by decide, by decide⟩,
      by decide⟩
  fits := ⟨by decide, by decide, by decide, by decide,
    List.forall_mem_singleton.mpr ⟨by decide, by decide, by decide, by decide⟩⟩
  scans := rfl

end Frame

namespace Stream

end Stream
end ImageAudit.Jpeg
