import ImageAudit.Proofs.Jpeg.MarkerReading

/-! Marker lists as parses. The markers of a stream without findings, together with the fill bytes
and the entropy-coded data between them, are the bytes of the stream with no gap and no overlap; and
a stream of markers that mean nothing to the decoder is read back as those markers. -/
namespace ImageAudit.Jpeg

variable {source : Source} {content : List UInt8}

namespace EntropyData

/-- What is fetched is a prefix of what was searched before and what is left to be searched. -/
theorem isPrefix_of_readFrom (h : source.Holds content) {position index : Nat}
    {data found : ByteArray} (hread : readFrom source position data index = .ok found) :
    found.data.toList <+: data.data.toList ++ content.drop position := by
  fun_induction readFrom source position data index with
  | case1 => cases hread
  | case2 position data index hlt count chunk hchunk stop hstop =>
    obtain rfl := Except.ok.inj hread
    obtain ⟨hsize, hstands⟩ := h.read_iff.mp hchunk
    rw [ByteArray.data_extract, Array.toList_extract, List.extract_eq_take_drop, List.drop_zero]
    apply (List.take_prefix _ _).trans
    rw [ByteArray.data_append, Array.toList_append]
    exact (List.prefix_append_right_inj _).mpr hstands.2
  | case3 position data index hlt count chunk hchunk searched resume hresume ih =>
    obtain ⟨hsize, hstands⟩ := h.read_iff.mp hchunk
    have hlength : chunk.data.toList.length = count := hsize
    have hdrop : content.drop position = chunk.data.toList ++ content.drop (position + count) := by
      obtain ⟨rest, hrest⟩ := hstands.2
      rw [← List.drop_drop, ← hrest, ← hlength, List.drop_left]
    have hprefix := ih hread
    rwa [ByteArray.data_append, Array.toList_append, List.append_assoc, ← hdrop] at hprefix
  | case4 =>
    obtain rfl := Except.ok.inj hread
    exact List.prefix_append _ _

/-- Entropy-coded data are the bytes that stand where they are read. -/
theorem standsAt_of_read (h : source.Holds content) {offset : Nat} {found : ByteArray}
    (hread : read source offset = .ok found) (hle : offset ≤ content.length) :
    StandsAt found.data.toList content offset :=
  ⟨hle, isPrefix_of_readFrom h hread⟩

end EntropyData

/-- A marker, the number of fill bytes before it and the entropy-coded data behind it. -/
structure Part where
  fill : Nat
  marker : Marker
  data : List UInt8

namespace Part

def bytes (p : Part) : List UInt8 := List.replicate p.fill 0xFF ++ (p.marker.bytes ++ p.data)

/-- Behind a scan header stands what is read there as entropy-coded data, and nothing behind any
other marker. -/
def HasData (source : Source) (p : Part) : Prop :=
  if p.marker.id = MarkerId.startOfScan then
    ∃ found, EntropyData.read source (p.marker.offset + p.marker.bytes.length) = .ok found ∧
      found.data.toList = p.data
  else p.data = []

/-- The part begins at `offset`, and its marker, which does not start an image, has the given
number. -/
structure LaidAt (source : Source) (offset number : Nat) (p : Part) : Prop where
  offset_eq : p.marker.offset = offset + p.fill
  number_eq : p.marker.number = number
  stored : p.marker.Stored
  notStart : p.marker.id ≠ MarkerId.startOfImage
  data : p.HasData source

def refill (p : Part) : Part := { p with fill := p.fill + 1 }

theorem bytes_refill (p : Part) : p.refill.bytes = 0xFF :: p.bytes := by
  simp [refill, bytes, List.replicate_succ]

theorem LaidAt.refill {offset number : Nat} {p : Part} (h : p.LaidAt source (offset + 1) number) :
    p.refill.LaidAt source offset number where
  offset_eq := by
    change p.marker.offset = offset + (p.fill + 1)
    rw [h.offset_eq]
    omega
  number_eq := h.number_eq
  stored := h.stored
  notStart := h.notStart
  data := h.data

end Part

/-- Parts one behind another from `offset` on, with markers numbered from `number` on, of which the
last one and no other ends the image. -/
inductive Laid (source : Source) : (offset number : Nat) → List Part → Prop where
  | last {offset number : Nat} {p : Part} (hp : p.LaidAt source offset number)
      (hend : p.marker.id = MarkerId.endOfImage) : Laid source offset number [p]
  | cons {offset number : Nat} {p : Part} {parts : List Part}
      (hp : p.LaidAt source offset number) (hend : p.marker.id ≠ MarkerId.endOfImage)
      (hrest : Laid source (offset + p.bytes.length) (number + 1) parts) :
      Laid source offset number (p :: parts)

namespace Laid

variable {offset number i : Nat} {parts : List Part}

theorem length_pos (h : Laid source offset number parts) : 0 < parts.length := by
  cases h <;> simp

/-- A fill byte in front belongs to the first part. -/
theorem exists_refill (h : Laid source (offset + 1) number parts) :
    ∃ filled, Laid source offset number filled ∧
      filled.map (·.marker) = parts.map (·.marker) ∧
      filled.flatMap Part.bytes = 0xFF :: parts.flatMap Part.bytes := by
  cases h with
  | @last _ _ p hp hend =>
    refine ⟨[p.refill], .last hp.refill hend, rfl, ?_⟩
    simp [Part.bytes_refill]
  | @cons _ _ p parts hp hend hrest =>
    have hnext : offset + 1 + p.bytes.length = offset + p.refill.bytes.length := by
      rw [Part.bytes_refill, List.length_cons]
      omega
    refine ⟨p.refill :: parts, .cons hp.refill hend (hnext ▸ hrest), rfl, ?_⟩
    simp [Part.bytes_refill]

/-- Every part lies behind those before it and has the number that follows theirs. -/
theorem laidAt_getElem (h : Laid source offset number parts) (hi : i < parts.length) :
    parts[i].LaidAt source (offset + ((parts.take i).flatMap Part.bytes).length) (number + i) := by
  induction h generalizing i with
  | last hp hend =>
    obtain rfl : i = 0 := by simpa using hi
    exact hp
  | cons hp hend hrest ih =>
    cases i with
    | zero => exact hp
    | succ i =>
      have hlaid := ih (Nat.lt_of_succ_lt_succ hi)
      rw [List.getElem_cons_succ, List.take_succ_cons, List.flatMap_cons, List.length_append,
        Nat.add_comm i 1, ← Nat.add_assoc, ← Nat.add_assoc]
      exact hlaid

/-- The end of the image is the marker of the last part alone. -/
theorem endOfImage_iff (h : Laid source offset number parts) (hi : i < parts.length) :
    parts[i].marker.id = MarkerId.endOfImage ↔ i + 1 = parts.length := by
  induction h generalizing i with
  | last hp hend =>
    obtain rfl : i = 0 := by simpa using hi
    simp [hend]
  | cons hp hend hrest ih =>
    cases i with
    | zero =>
      have hpos := hrest.length_pos
      simp only [List.getElem_cons_zero, hend, List.length_cons, false_iff]
      omega
    | succ i =>
      simpa using ih (Nat.lt_of_succ_lt_succ hi)

end Laid

namespace Scanner

variable {s : Scanner}

theorem run_advance {t : Scanner} (h : step source s = .advance t) :
    run source s = run source t := by
  rw [run]
  split
  · next hf => simp [h] at hf
  · next ha =>
    obtain rfl : _ = t := by simpa [h] using ha.symm
    rfl

theorem run_finish {t : Stream} (h : step source s = .finish t) : run source s = t := by
  rw [run]
  split
  · next hf => simpa [h] using hf.symm
  · next ha => simp [h] at ha

/-- Marker `m`, whose payload ends at `next`, is taken in as part `p` of the stream, which becomes
`t`. -/
structure Enters (source : Source) (s : Stream) (m : Marker) (next : Nat) (p : Part)
    (t : Stream) : Prop where
  fill : p.fill = 0
  marker : ∃ index, p.marker = m.moveTo index
  data : if m.id = MarkerId.startOfScan then
      ∃ found, EntropyData.read source next = .ok found ∧ found.data.toList = p.data
    else p.data = []
  markers : t.markers = s.markers.push p.marker
  embedded : t.embedded = s.embedded

/-- What a marker may lead to: the stream ends with a finding or with the marker, or it goes on
behind the marker and its data. -/
inductive Leads (source : Source) (s : Stream) (m : Marker) (next : Nat) : Outcome → Prop where
  | finding {t : Stream} (h : t.findings ≠ []) : Leads source s m next (.finish t)
  | last {p : Part} {t : Stream} (hp : Enters source s m next p t)
      (hend : p.marker.id = MarkerId.endOfImage)
      (hwhole : t.embedded = false → next + p.data.length = source.length) :
      Leads source s m next (.finish t)
  | more {p : Part} {t : Stream} (hp : Enters source s m next p t)
      (hend : p.marker.id ≠ MarkerId.endOfImage) :
      Leads source s m next (.advance ⟨next + p.data.length, m.number + 1, t⟩)

theorem leads_leave {s t : Stream} {m : Marker} {next : Nat} {data : List UInt8}
    (hmarkers : t.markers = s.markers) (hembedded : t.embedded = s.embedded)
    (hdata : if m.id = MarkerId.startOfScan then
        ∃ found, EntropyData.read source next = .ok found ∧ found.data.toList = data
      else data = []) (index : Nat) :
    Leads source s m next (leave source t (m.moveTo index) (next + data.length)) := by
  have hp : Enters source s m next ⟨0, m.moveTo index, data⟩
      { t with markers := t.markers.push (m.moveTo index) } := {
    fill := rfl
    marker := ⟨index, rfl⟩
    data := hdata
    markers := by rw [← hmarkers]
    embedded := hembedded }
  simp only [leave]
  split
  · next hclean =>
    apply Leads.finding
    simpa [Stream.isClean] using hclean
  · split
    · next hend =>
      split
      · exact .finding (by simp [Stream.report])
      · next hwhole =>
        refine .last hp hend fun hnot => ?_
        change t.embedded = false at hnot
        simpa [hnot] using hwhole
    · next hend => exact .more hp hend

theorem checkScanData_keeps (t : Stream) (data : ByteArray) (offset : Nat) :
    (t.checkScanData data offset).markers = t.markers ∧
      (t.checkScanData data offset).embedded = t.embedded := by
  unfold Stream.checkScanData
  split
  · split <;> exact ⟨rfl, rfl⟩
  · exact ⟨rfl, rfl⟩

theorem leads_enter (source : Source) (s : Stream) (m : Marker) (next : Nat) :
    Leads source s m next (enter source s m next) := by
  obtain ⟨⟨index, hmarker⟩, hmarkers, hembedded⟩ := s.takes_take m
  simp only [enter, hmarker]
  split
  · next hscan =>
    rw [takeScanData]
    cases hread : EntropyData.read source next with
    | error e => exact .finding (by simp [Stream.report])
    | ok found =>
      obtain ⟨hsame, hsame'⟩ := checkScanData_keeps (s.take m).1 found next
      apply leads_leave (hsame.trans hmarkers) (hsame'.trans hembedded) _ index
      rw [if_pos (show m.id = MarkerId.startOfScan from hscan.1)]
      exact ⟨found, hread, rfl⟩
  · next hscan =>
    by_cases hid : m.id = MarkerId.startOfScan
    · have hdirty : (s.take m).1.isClean = false := by simpa [Marker.moveTo, hid] using hscan
      simp only [leave]
      rw [if_pos (by simpa [Stream.isClean] using hdirty)]
      exact .finding (by simpa [Stream.isClean] using hdirty)
    · have hdata : if m.id = MarkerId.startOfScan then
          ∃ found, EntropyData.read source next = .ok found ∧ found.data.toList = []
          else ([] : List UInt8) = [] := by rw [if_neg hid]
      exact leads_leave hmarkers hembedded hdata index

/-- What a step may lead to: the stream ends with a finding or with a part that ends the image, or
it goes on behind a fill byte or another part. -/
inductive Steps (source : Source) (content : List UInt8) (s : Scanner) : Outcome → Prop where
  | finding {t : Stream} (h : t.findings ≠ []) : Steps source content s (.finish t)
  | fill (h : StandsAt [0xFF, 0xFF] content s.offset) :
      Steps source content s (.advance { s with offset := s.offset + 1 })
  | last {p : Part} {t : Stream} (hp : p.LaidAt source s.offset s.number)
      (hbytes : StandsAt p.bytes content s.offset)
      (hmarkers : t.markers = s.stream.markers.push p.marker)
      (hend : p.marker.id = MarkerId.endOfImage)
      (hwhole : s.stream.embedded = false → s.offset + p.bytes.length = content.length) :
      Steps source content s (.finish t)
  | more {p : Part} {t : Stream} (hp : p.LaidAt source s.offset s.number)
      (hbytes : StandsAt p.bytes content s.offset)
      (hmarkers : t.markers = s.stream.markers.push p.marker)
      (hembedded : t.embedded = s.stream.embedded)
      (hend : p.marker.id ≠ MarkerId.endOfImage) :
      Steps source content s (.advance ⟨s.offset + p.bytes.length, s.number + 1, t⟩)

/-- A marker that stands in the stream and is taken in is a part of it. -/
theorem Enters.laidAt {s : Stream} {m : Marker} {p : Part} {t : Stream}
    (hp : Enters source s m (m.offset + m.bytes.length) p t) (h : source.Holds content)
    (hstored : m.Stored) (hstart : m.id ≠ MarkerId.startOfImage)
    (hbytes : StandsAt m.bytes content m.offset) :
    p.LaidAt source m.offset m.number ∧ StandsAt p.bytes content m.offset ∧
      p.bytes.length = m.bytes.length + p.data.length := by
  obtain ⟨index, hmarker⟩ := hp.marker
  have heq : p.bytes = m.bytes ++ p.data := by
    rw [Part.bytes, hp.fill, hmarker]
    rfl
  refine ⟨⟨?_, ?_, ?_, ?_, ?_⟩, ?_, ?_⟩
  · rw [hp.fill, hmarker]
    rfl
  · rw [hmarker]
    rfl
  · rw [hmarker]
    exact hstored.moveTo index
  · rw [hmarker]
    exact hstart
  · rw [Part.HasData, hmarker]
    exact hp.data
  · rw [heq, StandsAt.append_iff]
    refine ⟨hbytes, ?_⟩
    have hdata := hp.data
    split at hdata
    · obtain ⟨found, hfound, hdata⟩ := hdata
      rw [← hdata]
      exact EntropyData.standsAt_of_read h hfound hbytes.le
    · rw [hdata]
      exact ⟨hbytes.le, List.nil_prefix⟩
  · rw [heq, List.length_append]

theorem steps_step (h : source.Holds content) (s : Scanner) :
    Steps source content s (step source s) := by
  unfold step
  split
  · exact .finding (by simp [Stream.report])
  · next hread => exact .fill ((Marker.readAt_fill_iff h).mp hread)
  · next m next hread =>
    obtain ⟨hstored, _, hstart, hoffset, hnumber, hbytes, rfl⟩ :=
      (Marker.readAt_marker_iff h).mp hread
    rw [← hoffset] at hbytes ⊢
    have hleads := leads_enter source s.stream m (m.offset + m.bytes.length)
    generalize enter source s.stream m (m.offset + m.bytes.length) = outcome at hleads ⊢
    cases hleads with
    | finding hne => exact .finding hne
    | @last p t hp hend hwhole =>
      obtain ⟨hlaid, hstands, hlength⟩ := hp.laidAt h hstored hstart hbytes
      rw [hoffset, hnumber] at hlaid
      rw [hoffset] at hstands
      refine .last hlaid hstands hp.markers hend ?_
      intro hnot
      rw [← h.length_eq, hlength, ← hoffset, ← Nat.add_assoc]
      exact hwhole (hp.embedded.trans hnot)
    | @more p t hp hend =>
      obtain ⟨hlaid, hstands, hlength⟩ := hp.laidAt h hstored hstart hbytes
      rw [Nat.add_assoc, ← hlength, hnumber, hoffset]
      rw [hoffset, hnumber] at hlaid
      rw [hoffset] at hstands
      exact .more hlaid hstands hp.markers hp.embedded hend

/-- A run without findings takes in parts that follow one another up to the end of the image. -/
theorem exists_laid_of_run (h : source.Holds content) (s : Scanner)
    (hclean : (run source s).findings = []) :
    ∃ parts, Laid source s.offset s.number parts ∧
      StandsAt (parts.flatMap Part.bytes) content s.offset ∧
      (run source s).markers.toList = s.stream.markers.toList ++ parts.map (·.marker) ∧
      (s.stream.embedded = false →
        s.offset + (parts.flatMap Part.bytes).length = content.length) := by
  fun_induction run source s with
  | case1 s t hstep =>
    have hsteps := steps_step h s
    rw [hstep] at hsteps
    cases hsteps with
    | finding hne => exact absurd hclean hne
    | @last p _ hp hbytes hmarkers hend hwhole =>
      refine ⟨[p], .last hp hend, ?_, ?_, ?_⟩
      · simpa using hbytes
      · simp [hmarkers]
      · simpa using hwhole
  | case2 s t hstep _ ih =>
    obtain ⟨parts, hlaid, hbytes, hmarkers, hwhole⟩ := ih hclean
    have hsteps := steps_step h s
    rw [hstep] at hsteps
    cases hsteps with
    | fill hfill =>
      obtain ⟨filled, hfilled, hsame, hflat⟩ := hlaid.exists_refill
      refine ⟨filled, hfilled, ?_, ?_, ?_⟩
      · have hone : StandsAt ([0xFF] ++ [0xFF]) content s.offset := hfill
        rw [hflat]
        exact StandsAt.append_iff.mpr ⟨(StandsAt.append_iff.mp hone).1, hbytes⟩
      · rw [hmarkers, hsame]
      · intro hnot
        have hrest := hwhole hnot
        dsimp only at hrest
        rw [hflat, List.length_cons]
        omega
    | @more p u hp hpbytes hpmarkers hembedded hend =>
      refine ⟨p :: parts, .cons hp hend hlaid, ?_, ?_, ?_⟩
      · rw [List.flatMap_cons]
        exact StandsAt.append_iff.mpr ⟨hpbytes, hbytes⟩
      · rw [hmarkers, hpmarkers]
        simp
      · intro hnot
        rw [List.flatMap_cons, List.length_append, ← Nat.add_assoc]
        exact hwhole (hembedded.trans hnot)

end Scanner

def Marker.standalone (id offset number : Nat) : Marker :=
  ⟨id, none, offset, number, .empty (offset + markerSize)⟩

namespace Marker

variable {id : Nat}

theorem stored_standalone (hgt : MarkerId.stuffing < id) (hlt : id < MarkerId.fill)
    (hlength : MarkerId.hasLength id = false) (offset number : Nat) :
    (standalone id offset number).Stored where
  id_gt := hgt
  id_lt := hlt
  length_eq := by simp [standalone, hlength]
  length_lt := (by decide : markerSize + 0 < 0x10000)
  segment_offset := by simp [standalone, hlength, Segment.empty]
  standalone _ := rfl

theorem bytes_standalone (id offset number : Nat) :
    (standalone id offset number).bytes = ByteOrder.bigEndian.encode markerSize id :=
  List.append_nil _

end Marker

def startMarker : Marker := .standalone MarkerId.startOfImage 0 1

def endMarker (offset number : Nat) : Marker := .standalone MarkerId.endOfImage offset number

theorem stored_startMarker : startMarker.Stored :=
  Marker.stored_standalone (by decide) (by decide) rfl 0 1

theorem stored_endMarker (offset number : Nat) : (endMarker offset number).Stored :=
  Marker.stored_standalone (by decide) (by decide) rfl offset number

theorem bytes_startMarker : startMarker.bytes = [0xFF, 0xD8] := by
  rw [startMarker, Marker.bytes_standalone]
  decide

theorem bytes_endMarker (offset number : Nat) : (endMarker offset number).bytes = [0xFF, 0xD9] := by
  rw [endMarker, Marker.bytes_standalone]
  decide

namespace Stream

/-- A stream is begun without a finding exactly where the bytes that start an image stand at its
start. -/
theorem identify_cases (h : source.Holds content) (embedded : Bool) :
    (((empty embedded).identify source).findings ≠ [] ∧
        ((empty embedded).identify source).identified = false ∧
        ¬ StandsAt startMarker.bytes content 0) ∨
      ((empty embedded).identify source =
          { empty embedded with identified := true, markers := #[startMarker] } ∧
        StandsAt startMarker.bytes content 0) := by
  rw [identify, startMarker, Marker.bytes_standalone]
  cases hread : source.read 0 markerSize with
  | error e =>
    refine .inl ⟨by simp [report], rfl, fun hstands => ?_⟩
    have hbytes : source.read 0 markerSize = .ok
        ⟨(ByteOrder.bigEndian.encode markerSize MarkerId.startOfImage).toArray⟩ :=
      h.read_iff.mpr ⟨ByteOrder.length_encode .bigEndian _ _, hstands⟩
    rw [hread] at hbytes
    cases hbytes
  | ok bytes =>
    obtain ⟨hsize, hstands⟩ := h.read_iff.mp hread
    have hlength : bytes.data.toList.length = markerSize := hsize
    by_cases hid : ByteOrder.bigEndian.decode bytes.data.toList = MarkerId.startOfImage
    · refine .inr ⟨?_, ?_⟩
      · simp [hid, MarkerId.isMarker, MarkerId.startOfImage, empty, Marker.standalone]
      · rw [← hid, ← hlength, ByteOrder.encode_decode]
        exact hstands
    · refine .inl ⟨?_, ?_, fun hstart => hid ?_⟩
      · dsimp only
        split
        · simp [report]
        · simp [hid, report]
      · dsimp only
        split
        · rfl
        · simp [hid, report, empty]
      · have hfound := hstands.bytesAt_eq
        have hwanted := hstart.bytesAt_eq
        rw [hlength] at hfound
        rw [ByteOrder.length_encode] at hwanted
        rw [← hfound, hwanted]
        exact ByteOrder.decode_encode .bigEndian markerSize _ (by decide)

end Stream

/-- The parts are a parse of what `source` holds: parts that are numbered from one on and lie one
behind another from the first byte on, of which the first one and no other starts an image and the
last one and no other ends it. -/
structure Parse (source : Source) (content : List UInt8) (embedded : Bool)
    (parts : List Part) : Prop where
  two_le : 2 ≤ parts.length
  number : ∀ i (h : i < parts.length), parts[i].marker.number = i + 1
  offset : ∀ i (h : i < parts.length),
    parts[i].marker.offset = ((parts.take i).flatMap Part.bytes).length + parts[i].fill
  stored : ∀ i (h : i < parts.length), parts[i].marker.Stored
  data : ∀ i (h : i < parts.length), parts[i].HasData source
  start : ∀ i (h : i < parts.length), parts[i].marker.id = MarkerId.startOfImage ↔ i = 0
  start_fill : ∀ h : 0 < parts.length, parts[0].fill = 0
  finish : ∀ i (h : i < parts.length),
    parts[i].marker.id = MarkerId.endOfImage ↔ i + 1 = parts.length
  bytes : parts.flatMap Part.bytes <+: content
  whole : embedded = false → parts.flatMap Part.bytes = content

/-- The start of an image with parts behind it that end the image are a parse. -/
theorem Parse.of_laid {parts : List Part} {embedded : Bool}
    (hlaid : Laid source markerSize 2 parts)
    (hstart : StandsAt startMarker.bytes content 0)
    (hbytes : StandsAt (parts.flatMap Part.bytes) content markerSize)
    (hwhole : embedded = false →
      markerSize + (parts.flatMap Part.bytes).length = content.length) :
    Parse source content embedded (⟨0, startMarker, []⟩ :: parts) := by
  have hlength : startMarker.bytes.length = markerSize := by
    rw [bytes_startMarker]
    rfl
  have hflat : (⟨0, startMarker, []⟩ :: parts : List Part).flatMap Part.bytes =
      startMarker.bytes ++ parts.flatMap Part.bytes := by
    simp [Part.bytes]
  have hall : StandsAt (startMarker.bytes ++ parts.flatMap Part.bytes) content 0 := by
    rw [StandsAt.append_iff, hlength, Nat.zero_add]
    exact ⟨hstart, hbytes⟩
  have hlater : ∀ i (h : i < parts.length), _ := fun i h => hlaid.laidAt_getElem h
  refine ⟨?_, ?_, ?_, ?_, ?_, ?_, fun _ => rfl, ?_, ?_, ?_⟩
  · exact Nat.succ_le_succ hlaid.length_pos
  · rintro (_ | i) hi
    · rfl
    · rw [List.getElem_cons_succ, (hlater i _).number_eq]
      omega
  · rintro (_ | i) hi
    · rfl
    · have hoffset := (hlater i (Nat.lt_of_succ_lt_succ hi)).offset_eq
      rw [List.getElem_cons_succ, hoffset, List.take_succ_cons, List.flatMap_cons,
        List.length_append, ← hlength]
      simp [Part.bytes]
  · rintro (_ | i) hi
    · exact stored_startMarker
    · exact (hlater i (Nat.lt_of_succ_lt_succ hi)).stored
  · rintro (_ | i) hi
    · exact rfl
    · exact (hlater i (Nat.lt_of_succ_lt_succ hi)).data
  · rintro (_ | i) hi
    · exact iff_of_true rfl rfl
    · have hnot := (hlater i (Nat.lt_of_succ_lt_succ hi)).notStart
      exact iff_of_false hnot (Nat.succ_ne_zero i)
  · rintro (_ | i) hi
    · have hpos := hlaid.length_pos
      have hnot : startMarker.id ≠ MarkerId.endOfImage := by decide
      refine iff_of_false hnot ?_
      rw [List.length_cons]
      omega
    · rw [List.getElem_cons_succ, hlaid.endOfImage_iff (Nat.lt_of_succ_lt_succ hi),
        List.length_cons]
      omega
  · rw [hflat]
    exact StandsAt.zero_iff.mp hall
  · intro hnot
    rw [hflat]
    apply hall.eq_content
    have hend := hwhole hnot
    simp only [List.length_append, hlength]
    omega

namespace Decoder

variable {d : Decoder}

/-- Checking a stream runs the marker loop behind the start of the image. -/
theorem stream_process (hmode : d.settings.mode = .check) (h : source.Holds content)
    (hstart : StandsAt startMarker.bytes content 0) :
    (d.process source).stream = Scanner.run source ⟨markerSize, 2,
      { Stream.empty d.embedded with identified := true, markers := #[startMarker] }⟩ := by
  rcases Stream.identify_cases h d.embedded with ⟨_, _, hnot⟩ | ⟨hidentify, _⟩
  · exact absurd hstart hnot
  · simp [process, identify, reset, hidentify, Settings.isIdentify, hmode, Stream.check]

theorem standsAt_of_findings (h : source.Holds content)
    (hclean : (d.process source).stream.findings = []) : StandsAt startMarker.bytes content 0 := by
  rcases Stream.identify_cases h d.embedded with ⟨hne, hidentified, _⟩ | ⟨_, hstart⟩
  · refine absurd hclean ?_
    simpa [process, identify, reset, hidentified] using hne
  · exact hstart

/-- The markers of a stream without findings are a parse of it. -/
theorem exists_parse (hmode : d.settings.mode = .check) (h : source.Holds content)
    (hclean : (d.process source).stream.findings = []) :
    ∃ parts, Parse source content d.embedded parts ∧
      (d.process source).stream.markers.toList = parts.map (·.marker) := by
  have hstart := standsAt_of_findings h hclean
  rw [stream_process hmode h hstart] at hclean ⊢
  obtain ⟨parts, hlaid, hbytes, hmarkers, hwhole⟩ := Scanner.exists_laid_of_run h _ hclean
  exact ⟨_, .of_laid hlaid hstart hbytes hwhole, hmarkers⟩

end Decoder
end ImageAudit.Jpeg
