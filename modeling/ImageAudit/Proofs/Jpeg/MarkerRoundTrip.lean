import ImageAudit.Proofs.Jpeg.MarkerStream

/-! Markers read back. A stream between start and end of an image that is made of markers without a
meaning of their own gives no finding and records just those markers, and every list of markers
that is recorded without a finding is a parse of the stream. -/
namespace ImageAudit.Jpeg

def maxPayload : Nat := 65533

/-- A marker that the decoder only records, with the fill bytes before it. -/
structure PlainMarker where
  fill : Nat
  id : Nat
  payload : List UInt8
  id_gt : MarkerId.stuffing < id
  id_lt : id < MarkerId.fill
  isPlain : id ≠ MarkerId.startOfImage ∧ id ≠ MarkerId.endOfImage ∧
    MarkerId.isStartOfFrame id = false ∧ id ≠ MarkerId.startOfScan ∧
    id ≠ MarkerId.defineHuffman ∧ id ≠ MarkerId.defineQuantization ∧ id ≠ MarkerId.defineRestart
  fits : payload.length ≤ if MarkerId.hasLength id then maxPayload else 0

namespace PlainMarker

variable (p : PlainMarker)

def bytes : List UInt8 :=
  List.replicate p.fill 0xFF ++ (ByteOrder.bigEndian.encode markerSize p.id ++
    if MarkerId.hasLength p.id then
      ByteOrder.bigEndian.encode markerSize (markerSize + p.payload.length) ++ p.payload
    else [])

def marker (offset number : Nat) : Marker :=
  if MarkerId.hasLength p.id then
    ⟨p.id, some (markerSize + p.payload.length), offset, number,
      ⟨offset + markerSize + markerSize, ⟨p.payload.toArray⟩, .bigEndian, 0⟩⟩
  else .standalone p.id offset number

theorem id_marker (offset number : Nat) : (p.marker offset number).id = p.id := by
  unfold marker
  split <;> rfl

theorem offset_marker (offset number : Nat) : (p.marker offset number).offset = offset := by
  unfold marker
  split <;> rfl

theorem number_marker (offset number : Nat) : (p.marker offset number).number = number := by
  unfold marker
  split <;> rfl

theorem unread_marker (offset number : Nat) : (p.marker offset number).Unread := by
  unfold marker
  split <;> exact ⟨rfl, rfl⟩

theorem bytes_eq (offset number : Nat) :
    p.bytes = List.replicate p.fill 0xFF ++ (p.marker offset number).bytes := by
  unfold bytes marker
  split
  · rfl
  · rw [Marker.bytes_standalone, List.append_nil]

theorem stored_marker (offset number : Nat) : (p.marker offset number).Stored := by
  unfold marker
  split
  · next hlength =>
    have hfits := p.fits
    rw [if_pos hlength, maxPayload] at hfits
    exact {
      id_gt := p.id_gt
      id_lt := p.id_lt
      length_eq := by simp [hlength, Segment.length, ByteArray.size]
      length_lt := by
        change markerSize + p.payload.toArray.size < 0x10000
        rw [List.size_toArray, markerSize]
        omega
      segment_offset := by simp [hlength]
      standalone := by simp [hlength] }
  · next hlength =>
    exact Marker.stored_standalone p.id_gt p.id_lt (by simpa using hlength) offset number

end PlainMarker

/-- The markers that are recorded from `offset` on of a stream that ends behind them, `fill` fill
bytes standing before its end. -/
def recorded (fill : Nat) : (offset number : Nat) → List PlainMarker → List Marker
  | offset, number, [] => [endMarker (offset + fill) number]
  | offset, number, p :: rest =>
    p.marker (offset + p.fill) number :: recorded fill (offset + p.bytes.length) (number + 1) rest

def streamBytes (plain : List PlainMarker) (fill : Nat) : List UInt8 :=
  [0xFF, 0xD8] ++ (plain.flatMap PlainMarker.bytes ++ (List.replicate fill 0xFF ++ [0xFF, 0xD9]))

namespace Marker

/-- A stored marker begins with `0xFF`. -/
theorem exists_bytes_eq_cons {m : Marker} (h : m.Stored) : ∃ rest, m.bytes = 0xFF :: rest := by
  have hgt : 0xFF00 < m.id := h.id_gt
  have hlt : m.id < 0xFFFF := h.id_lt
  have hfirst : UInt8.ofNat (m.id / 256) = 0xFF := by
    rw [show m.id / 256 = 0xFF by omega]
    rfl
  have hid : ByteOrder.bigEndian.encode markerSize m.id = [0xFF, UInt8.ofNat m.id] := by
    simp [ByteOrder.encode, markerSize, ByteOrder.toDigits, hfirst]
  rw [bytes, hid]
  exact ⟨_, rfl⟩

end Marker

namespace Scanner

variable {source : Source} {content : List UInt8} {offset number fill : Nat} {s : Stream}

/-- Fill bytes are passed one by one. -/
theorem run_fill (h : source.Holds content)
    (hstands : StandsAt (List.replicate fill 0xFF ++ [0xFF]) content offset) :
    run source ⟨offset, number, s⟩ = run source ⟨offset + fill, number, s⟩ := by
  induction fill generalizing offset with
  | zero => rfl
  | succ fill ih =>
    rw [List.replicate_succ, List.cons_append] at hstands
    have hsplit : StandsAt ([0xFF] ++ (List.replicate fill 0xFF ++ [0xFF])) content offset := hstands
    have hrest := (StandsAt.append_iff.mp hsplit).2
    have htwo : StandsAt [0xFF, 0xFF] content offset := by
      rw [← List.replicate_succ', List.replicate_succ] at hsplit
      have hassoc : ([0xFF] ++ 0xFF :: List.replicate fill 0xFF : List UInt8) =
          [0xFF, 0xFF] ++ List.replicate fill 0xFF := rfl
      rw [hassoc] at hsplit
      exact (StandsAt.append_iff.mp hsplit).1
    have hread : Marker.readAt source offset number = .ok .fill :=
      (Marker.readAt_fill_iff h).mpr htwo
    have hstep : step source ⟨offset, number, s⟩ = .advance ⟨offset + 1, number, s⟩ := by
      simp only [step, hread]
    calc run source ⟨offset, number, s⟩
      _ = run source ⟨offset + 1, number, s⟩ := run_advance hstep
      _ = run source ⟨offset + 1 + fill, number, s⟩ := ih hrest
      _ = run source ⟨offset + (fill + 1), number, s⟩ := by rw [Nat.add_assoc, Nat.add_comm 1]

/-- A marker that stands behind fill bytes is entered. -/
theorem run_marker (h : source.Holds content) {m : Marker} (hstored : m.Stored)
    (hunread : m.Unread) (hstart : m.id ≠ MarkerId.startOfImage) (hoffset : m.offset = offset + fill)
    (hstands : StandsAt (List.replicate fill 0xFF ++ m.bytes) content offset) :
    run source ⟨offset, m.number, s⟩ = run source ⟨m.offset, m.number, s⟩ ∧
      step source ⟨m.offset, m.number, s⟩ =
        enter source s m (m.offset + m.bytes.length) := by
  constructor
  · obtain ⟨rest, hrest⟩ := Marker.exists_bytes_eq_cons hstored
    have hsplit : List.replicate fill 0xFF ++ m.bytes =
        (List.replicate fill 0xFF ++ [0xFF]) ++ rest := by
      rw [hrest, List.append_assoc]
      rfl
    rw [hsplit] at hstands
    rw [hoffset]
    exact run_fill h (StandsAt.append_iff.mp hstands).1
  · have hbytes := (StandsAt.append_iff.mp hstands).2
    rw [List.length_replicate, ← hoffset] at hbytes
    have hread := (Marker.readAt_marker_iff h).mpr
      ⟨hstored, hunread, hstart, rfl, rfl, hbytes, rfl⟩
    simp only [step, hread]

/-- A plain marker is recorded and passed. -/
theorem run_plain (h : source.Holds content) (p : PlainMarker) (hclean : s.findings = [])
    (hstands : StandsAt p.bytes content offset) :
    run source ⟨offset, number, s⟩ = run source ⟨offset + p.bytes.length, number + 1,
      { s with markers := s.markers.push (p.marker (offset + p.fill) number) }⟩ := by
  have hid := p.id_marker (offset + p.fill) number
  have hoffset := p.offset_marker (offset + p.fill) number
  have hnumber := p.number_marker (offset + p.fill) number
  have hbytes := p.bytes_eq (offset + p.fill) number
  obtain ⟨hstart, hend, hframe, hscan, hhuffman, hquantization, hrestart⟩ := p.isPlain
  have hlength : p.bytes.length =
      p.fill + (p.marker (offset + p.fill) number).bytes.length := by
    rw [hbytes, List.length_append, List.length_replicate]
  rw [hbytes] at hstands
  obtain ⟨hrun, hstep⟩ := run_marker (s := s) h (p.stored_marker _ number)
    (p.unread_marker _ number) (by rwa [hid]) hoffset hstands
  have htake : s.take (p.marker (offset + p.fill) number) =
      (s, p.marker (offset + p.fill) number) := by
    simp [Stream.take, hid, hframe, hscan, hhuffman, hquantization, hrestart]
  have henter : enter source s (p.marker (offset + p.fill) number)
      (offset + p.fill + (p.marker (offset + p.fill) number).bytes.length) =
        .advance ⟨offset + p.bytes.length, number + 1,
          { s with markers := s.markers.push (p.marker (offset + p.fill) number) }⟩ := by
    simp [enter, htake, hid, hscan, leave, Stream.isClean, hclean, hend, hnumber, hlength,
      Nat.add_assoc]
  rw [hnumber] at hrun hstep
  rw [hoffset] at hrun hstep
  rw [hrun, run_advance (hstep.trans henter)]

/-- The end of an image ends the run. -/
theorem run_end (h : source.Holds content) (hclean : s.findings = [])
    (hstands : StandsAt (List.replicate fill 0xFF ++ [0xFF, 0xD9]) content offset)
    (hwhole : offset + fill + markerSize = content.length) :
    run source ⟨offset, number, s⟩ =
      { s with markers := s.markers.push (endMarker (offset + fill) number) } := by
  rw [← bytes_endMarker (offset + fill) number] at hstands
  obtain ⟨hrun, hstep⟩ := run_marker (s := s) h (stored_endMarker (offset + fill) number)
    ⟨rfl, rfl⟩ (show MarkerId.endOfImage ≠ MarkerId.startOfImage by decide) rfl hstands
  have htake : s.take (endMarker (offset + fill) number) = (s, endMarker (offset + fill) number) :=
    rfl
  have henter : enter source s (endMarker (offset + fill) number)
      (offset + fill + (endMarker (offset + fill) number).bytes.length) =
        .finish { s with markers := s.markers.push (endMarker (offset + fill) number) } := by
    have hscan : MarkerId.endOfImage ≠ MarkerId.startOfScan := by decide
    have hend : (endMarker (offset + fill) number).id = MarkerId.endOfImage := rfl
    have hlength : (endMarker (offset + fill) number).bytes.length = markerSize := by
      rw [bytes_endMarker]
      rfl
    simp [enter, htake, hscan, leave, Stream.isClean, hclean, hend, hlength, hwhole, h.length_eq]
  exact hrun.trans (run_finish (hstep.trans henter))

/-- Plain markers up to the end of the image are all recorded. -/
theorem run_recorded (h : source.Holds content) (plain : List PlainMarker)
    (hclean : s.findings = [])
    (hstands : StandsAt (plain.flatMap PlainMarker.bytes ++
      (List.replicate fill 0xFF ++ [0xFF, 0xD9])) content offset)
    (hwhole : offset + (plain.flatMap PlainMarker.bytes).length + fill + markerSize =
      content.length) :
    (run source ⟨offset, number, s⟩).findings = [] ∧
      (run source ⟨offset, number, s⟩).markers.toList =
        s.markers.toList ++ recorded fill offset number plain := by
  induction plain generalizing offset number s with
  | nil =>
    rw [run_end h hclean hstands hwhole]
    exact ⟨hclean, by simp [recorded]⟩
  | cons p plain ih =>
    rw [List.flatMap_cons, List.append_assoc, StandsAt.append_iff] at hstands
    rw [List.flatMap_cons, List.length_append, ← Nat.add_assoc] at hwhole
    rw [run_plain h p hclean hstands.1]
    have hpushed : ({ s with markers := s.markers.push (p.marker (offset + p.fill) number) } :
        Stream).findings = [] := hclean
    obtain ⟨hfindings, hmarkers⟩ := @ih _ (number + 1) _ hpushed hstands.2 hwhole
    exact ⟨hfindings, by rw [hmarkers]; simp [recorded]⟩

end Scanner

namespace Decoder

/-- The markers of a stream that is checked without a finding are a parse of the stream; and the
stream of any plain markers is checked without a finding and gives those markers. -/
theorem markers_parse_stream {d : Decoder} {source : Source} {content : List UInt8}
    (hmode : d.settings.mode = .check) (h : source.Holds content) :
    ((d.process source).stream.findings = [] →
      ∃ parts, Parse source content d.embedded parts ∧
        (d.process source).stream.markers.toList = parts.map (·.marker)) ∧
    ∀ plain fill, content = streamBytes plain fill →
      (d.process source).stream.findings = [] ∧
        (d.process source).stream.markers.toList = startMarker :: recorded fill markerSize 2 plain := by
  refine ⟨exists_parse hmode h, ?_⟩
  intro plain fill hcontent
  have hall : StandsAt (streamBytes plain fill) content 0 := by
    apply StandsAt.zero_iff.mpr
    exact hcontent ▸ List.prefix_rfl
  obtain ⟨hstart, hstands⟩ := StandsAt.append_iff.mp hall
  rw [← bytes_startMarker] at hstart
  rw [stream_process hmode h hstart]
  refine Scanner.run_recorded h plain rfl hstands ?_
  rw [hcontent, streamBytes]
  simp only [List.length_append, List.length_replicate, List.length_cons, List.length_nil,
    markerSize]
  omega

/-- A comment behind a fill byte, and a restart marker. -/
theorem markers_parse_stream_comment :
    let source := Source.ofBytes "stream"
      ⟨#[0xFF, 0xD8, 0xFF, 0xFF, 0xFE, 0x00, 0x04, 0x01, 0x02, 0xFF, 0xD0, 0xFF, 0xD9]⟩
    let stream := ((Decoder.new {} false).process source).stream
    stream.findings = [] ∧ stream.markers.toList.map (·.id) = [0xFFD8, 0xFFFE, 0xFFD0, 0xFFD9] ∧
      ∃ parts, Parse source
          [0xFF, 0xD8, 0xFF, 0xFF, 0xFE, 0x00, 0x04, 0x01, 0x02, 0xFF, 0xD0, 0xFF, 0xD9] false parts ∧
        stream.markers.toList = parts.map (·.marker) := by
  intro source stream
  have h : source.Holds
      [0xFF, 0xD8, 0xFF, 0xFF, 0xFE, 0x00, 0x04, 0x01, 0x02, 0xFF, 0xD0, 0xFF, 0xD9] :=
    .ofBytes "stream" (by decide)
  obtain ⟨hparse, hrecord⟩ := markers_parse_stream (d := .new {} false) rfl h
  obtain ⟨hfindings, hmarkers⟩ := hrecord
    [⟨1, 0xFFFE, [0x01, 0x02], by decide, by decide, by decide, by decide⟩,
      ⟨0, 0xFFD0, [], by decide, by decide, by decide, by decide⟩] 0 (by decide)
  refine ⟨hfindings, ?_, hparse hfindings⟩
  rw [show stream.markers.toList = _ from hmarkers]
  rfl

end Decoder
end ImageAudit.Jpeg
