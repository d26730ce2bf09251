import ImageAudit.Proofs.Checked.Jpeg.EntropyData
import ImageAudit.Proofs.Checked.Jpeg.Payload
import ImageAudit.Proofs.Jpeg.MarkerStream

/-! The marker loop with operations that can go wrong. Every marker ends inside the source and is at
least two bytes long, so offsets and marker numbers stay within their widths. -/
namespace ImageAudit.Jpeg

open Checked

namespace Stream

structure Sound (s : Stream) : Prop where
  frame : ∀ f, s.frame = some f → f.Sound
  huffman : s.huffman.Canonical

def checkedTakeFrame (s : Stream) (m : Marker) : Checked (Stream × Marker) := do
  let (frame, segment, findings) ← Frame.checkedRead m s.frame
  pure ({ s with frame }.reportAll findings, { m with segment })

def checkedTakeScan (s : Stream) (m : Marker) : Checked (Stream × Marker) :=
  match s.frame with
  | none => pure (s.report .scanBeforeFrame, m)
  | some f => do
    let (scan, segment, findings) ← Scan.checkedRead m f
    let frame := { f with scans := f.scans ++ scan.toList }
    pure ({ s with frame := some frame }.reportAll findings, { m with segment })

def checkedTakeHuffman (narrow : Nat → Checked Nat) (s : Stream) (m : Marker) :
    Checked (Stream × Marker) := do
  let (huffman, segment, findings) ← Huffman.checkedReadTables narrow (.ofFrame s.frame)
    (m.segment.length + 1) m.segment s.huffman
  pure ({ s with huffman }.reportAll findings, { m with segment })

def checkedTakeQuantization (s : Stream) (m : Marker) : Checked (Stream × Marker) := do
  let (quantization, segment, findings) ← Quantization.checkedReadTables (m.segment.length + 1)
    m.segment s.quantization
  pure ({ s with quantization }.reportAll findings, { m with segment })

def checkedTakeRestartInterval (s : Stream) (m : Marker) : Checked (Stream × Marker) :=
  let length := m.length.getD 0
  if length != restartLength then pure (s.report (.invalidRestartIntervalLength length), m)
  else do
    let (restartInterval, segment) ← m.segment.checkedUint 2
    pure ({ s with restartInterval }, { m with segment })

def checkedTake (narrow : Nat → Checked Nat) (s : Stream) (m : Marker) :
    Checked (Stream × Marker) :=
  if MarkerId.isStartOfFrame m.id then s.checkedTakeFrame m
  else if m.id == MarkerId.startOfScan then s.checkedTakeScan m
  else if m.id == MarkerId.defineHuffman then s.checkedTakeHuffman narrow m
  else if m.id == MarkerId.defineQuantization then s.checkedTakeQuantization m
  else if m.id == MarkerId.defineRestart then s.checkedTakeRestartInterval m
  else pure (s, m)

def checkedCheckScanData (s : Stream) (data : ByteArray) (offset : Nat) : Checked Stream :=
  match s.frame with
  | some f =>
    if f.isSequentialHuffman then do
      let findings ← ScanData.checkedCheck f s.huffman s.restartInterval data offset s.numScans
      pure (s.reportAll findings)
    else pure s
  | none => pure s

variable {s : Stream} {m : Marker}

theorem sound_empty (embedded : Bool) : (empty embedded).Sound where
  frame := fun f hframe => by cases hframe
  huffman := Huffman.Tables.canonical_empty

theorem checkedTake_eq (hm : m.segment.Sound) :
    s.checkedTake (cut maxHalf) m = pure (s.take m) := by
  have hturns : m.segment.left < m.segment.length + 1 :=
    Nat.lt_succ_of_le (Nat.sub_le _ _)
  unfold checkedTake take
  split
  · simp only [checkedTakeFrame, takeFrame, Frame.checkedRead_eq hm, pure_bind]
  split
  · unfold checkedTakeScan takeScan
    cases s.frame with
    | none => rfl
    | some f => simp only [Scan.checkedRead_eq hm, pure_bind]
  split
  · simp only [checkedTakeHuffman, takeHuffman,
      Huffman.checkedReadTables_eq hm hturns, pure_bind]
  split
  · simp only [checkedTakeQuantization, takeQuantization,
      Quantization.checkedReadTables_eq hm hturns, pure_bind]
  split
  · simp only [checkedTakeRestartInterval, takeRestartInterval]
    split
    · rfl
    · simp only [Segment.checkedUint_eq hm, pure_bind]
  · rfl

theorem Sound.take (h : s.Sound) (m : Marker) : (s.take m).1.Sound := by
  unfold Stream.take
  split
  · exact ⟨fun f hread => Frame.sound_read h.frame hread, h.huffman⟩
  split
  · unfold takeScan
    split
    · exact ⟨h.frame, h.huffman⟩
    · next f hframe =>
      dsimp only
      refine ⟨fun g hg => ?_, h.huffman⟩
      have hf := h.frame f hframe
      rw [← Option.some.inj hg]
      exact ⟨hf.width_le, hf.height_le, hf.sampling_le⟩
  split
  · exact ⟨h.frame, Huffman.canonical_readTables h.huffman⟩
  split
  · exact ⟨h.frame, h.huffman⟩
  split
  · simp only [takeRestartInterval]
    split <;> exact ⟨h.frame, h.huffman⟩
  · exact h

theorem checkedCheckScanData_eq (h : s.Sound) {data : ByteArray} {offset : Nat}
    (hend : offset + data.size < maxWord) :
    s.checkedCheckScanData data offset = pure (s.checkScanData data offset) := by
  unfold checkedCheckScanData checkScanData
  cases hframe : s.frame with
  | none => rfl
  | some f =>
    dsimp only
    split
    · rw [ScanData.checkedCheck_eq (h.frame f hframe) h.huffman hend, pure_bind]
    · rfl

theorem Sound.checkScanData (h : s.Sound) (data : ByteArray) (offset : Nat) :
    (s.checkScanData data offset).Sound := by
  unfold Stream.checkScanData
  split
  · split
    · exact ⟨h.frame, h.huffman⟩
    · exact h
  · exact h

end Stream

namespace MarkerId

def checkedName (id : Nat) : Checked String :=
  match mnemonics.lookup id with
  | some name => pure name
  | none =>
    if isRestart id then do
      let place ← sub id firstRestart
      pure ("RST" ++ toString place)
    else if firstApplication ≤ id && id ≤ lastApplication then do
      let place ← sub id firstApplication
      pure ("APP" ++ toString place)
    else pure ("0x" ++ Hex.text 4 id)

theorem checkedName_eq (id : Nat) : checkedName id = pure (name id) := by
  unfold checkedName name
  cases mnemonics.lookup id with
  | some name => rfl
  | none =>
    dsimp only
    split
    · next hrestart =>
      have hle : firstRestart ≤ id := of_decide_eq_true (Bool.and_eq_true_iff.mp hrestart).1
      rw [sub_eq hle, pure_bind]
    · split
      · next hplace =>
        have hle : firstApplication ≤ id := of_decide_eq_true (Bool.and_eq_true_iff.mp hplace).1
        rw [sub_eq hle, pure_bind]
      · rfl

end MarkerId

namespace Marker

def checkedWord (bytes : ByteArray) : Checked Nat := do
  let first ← get bytes.data.toList[0]?
  let second ← get bytes.data.toList[1]?
  pure (ByteOrder.bigEndian.decode [first, second])

def checkedReadWord (input : Input) (offset : Nat) : Checked (Except Finding Nat) :=
  if !input.source.hasSection offset markerSize then
    pure (.error (.unexpectedEnd offset markerSize input.source.length))
  else do
    match ← input.read offset markerSize with
    | .error e => pure (.error (.readingError e))
    | .ok bytes => do
      let word ← checkedWord bytes
      pure (.ok word)

def checkedReadPayload (input : Input) (offset count : Nat) : Checked (Except Finding Segment) :=
  if !input.source.hasSection offset count then
    pure (.error (.unexpectedEnd offset count input.source.length))
  else if count = 0 then pure (.ok (.empty offset))
  else do
    match ← input.read offset count with
    | .error e => pure (.error (.readingError e))
    | .ok data => pure (.ok ⟨offset, data, .bigEndian, 0⟩)

def checkedReadSegment (input : Input) (id offset start number : Nat) :
    Checked (Except Finding Found) := do
  match ← checkedReadWord input start with
  | .error finding => pure (.error finding)
  | .ok length =>
    if length < markerSize then do
      let name ← MarkerId.checkedName id
      pure (.error (.invalidMarkerLength name offset length))
    else do
      let behind ← add maxWord start markerSize
      let payload ← sub length markerSize
      match ← checkedReadPayload input behind payload with
      | .error finding => pure (.error finding)
      | .ok segment => do
        let next ← add maxWord behind payload
        pure (.ok (.marker ⟨id, some length, offset, number, segment⟩ next))

/-- Reads the marker `id` at `offset`. A marker that has a length is counted before it is read. -/
def checkedReadMarker (input : Input) (id offset number : Nat) :
    Checked (Except Finding Found) :=
  if !MarkerId.isMarker id || id == MarkerId.stuffing then do
    let name ← MarkerId.checkedName id
    pure (.error (.invalidMarker name offset))
  else if id = MarkerId.startOfImage then pure (.error (.startNotFirst offset))
  else do
    let next ← add maxWord offset markerSize
    let _ ← add maxLong number 1
    if MarkerId.hasLength id then checkedReadSegment input id offset next number
    else pure (.ok (.marker ⟨id, none, offset, number, .empty next⟩ next))

def checkedReadAt (input : Input) (offset number : Nat) : Checked (Except Finding Found) := do
  match ← checkedReadWord input offset with
  | .error finding => pure (.error finding)
  | .ok id =>
    if id = MarkerId.fill then pure (.ok .fill) else checkedReadMarker input id offset number

variable {input : Input} {offset number : Nat}

theorem checkedWord_eq {bytes : ByteArray} (h : bytes.size = markerSize) :
    checkedWord bytes = pure (ByteOrder.bigEndian.decode bytes.data.toList) := by
  have hlength : bytes.data.toList.length = 2 := h
  rw [checkedWord]
  generalize bytes.data.toList = items at hlength ⊢
  rcases items with _ | ⟨first, _ | ⟨second, _ | _⟩⟩
  · cases hlength
  · cases hlength
  · rfl
  · cases hlength

theorem checkedReadWord_eq (h : input.Valid) (offset : Nat) :
    checkedReadWord input offset = pure (readWord input.source offset) := by
  unfold checkedReadWord readWord
  split
  · rfl
  · rw [Input.read_eq h, pure_bind]
    cases hread : input.source.read offset markerSize with
    | error e => rfl
    | ok bytes =>
      dsimp only
      rw [checkedWord_eq (Source.size_read hread), pure_bind]

theorem checkedReadPayload_eq (h : input.Valid) (offset count : Nat) :
    checkedReadPayload input offset count = pure (readPayload input.source offset count) := by
  unfold checkedReadPayload readPayload
  split
  · rfl
  · split
    · rfl
    · rw [Input.read_eq h, pure_bind]
      cases input.source.read offset count <;> rfl

/-- A payload that was read lies inside the source and fits a segment. -/
theorem le_of_readPayload {source : Source} {count : Nat} {segment : Segment}
    (h : readPayload source offset count = .ok segment) :
    offset + count ≤ source.length ∧ segment.data.size = count ∧ segment.index = 0 := by
  unfold readPayload at h
  split at h
  · cases h
  · next hsection =>
    have hle := (Source.hasSection_iff.mp (by simpa using hsection)).2
    split at h
    · next hzero =>
      obtain rfl := Except.ok.inj h
      exact ⟨hle, hzero.symm, rfl⟩
    · split at h
      · cases h
      · next data hread =>
        obtain rfl := Except.ok.inj h
        exact ⟨hle, Source.size_read hread, rfl⟩

theorem word_le_of_readWord {source : Source} {word : Nat}
    (h : readWord source offset = .ok word) : word ≤ maxHalf := by
  unfold readWord at h
  split at h
  · cases h
  · split at h
    · cases h
    · next bytes hread =>
      obtain rfl := Except.ok.inj h
      have hlt := ByteOrder.bigEndian.decode_lt bytes.data.toList
      have hlength : bytes.data.toList.length = 2 := Source.size_read hread
      rw [hlength] at hlt
      exact Nat.le_of_lt_succ hlt

structure Inside (source : Source) (offset number next : Nat) (m : Marker) : Prop where
  number_eq : m.number = number
  segment : m.segment.Sound
  lt_next : offset + markerSize ≤ next
  next_le : next ≤ source.length

private theorem sound_empty (offset : Nat) : (Segment.empty offset).Sound :=
  Segment.sound_of_size (Nat.zero_le _)

theorem inside_of_readSegment {source : Source} {id next : Nat} {m : Marker}
    (h : readSegment source id offset number = .ok (.marker m next)) :
    Inside source offset number next m := by
  simp only [readSegment] at h
  split at h
  · cases h
  · next length hlength =>
    split at h
    · cases h
    · split at h
      · cases h
      · next segment hsegment =>
        obtain ⟨rfl, rfl⟩ := Found.marker.inj (Except.ok.inj h)
        obtain ⟨hle, hsize, hindex⟩ := le_of_readPayload hsegment
        have hword := word_le_of_readWord hlength
        have hmost : maxHalf ≤ maxWord := by decide
        refine ⟨rfl, ⟨?_, ?_⟩, by omega, hle⟩
        · rw [Segment.Valid, hindex]
          exact Nat.zero_le _
        · dsimp only
          omega

theorem inside_of_readAt {source : Source} {next : Nat} {m : Marker}
    (h : readAt source offset number = .ok (.marker m next)) :
    Inside source offset number next m := by
  unfold readAt at h
  split at h
  · cases h
  · next id hid =>
    have hle := le_length_of_readWord hid
    split at h
    · cases h
    · unfold readMarker at h
      split at h
      · cases h
      · split at h
        · cases h
        · split at h
          · exact inside_of_readSegment h
          · obtain ⟨rfl, rfl⟩ := Found.marker.inj (Except.ok.inj h)
            exact ⟨rfl, sound_empty _, Nat.le_refl _, hle⟩

theorem checkedReadSegment_eq (h : input.Valid) (id : Nat) :
    checkedReadSegment input id offset (offset + markerSize) number =
      pure (readSegment input.source id offset number) := by
  have hword := h.length_lt_maxWord
  simp only [checkedReadSegment, readSegment, checkedReadWord_eq h, pure_bind]
  cases hlength : readWord input.source (offset + markerSize) with
  | error finding => rfl
  | ok length =>
    have hbehind := le_length_of_readWord hlength
    dsimp only
    split
    · rw [MarkerId.checkedName_eq, pure_bind]
    · next hshort =>
      rw [add_eq (by omega), pure_bind, sub_eq (Nat.le_of_not_lt hshort), pure_bind,
        checkedReadPayload_eq h, pure_bind]
      cases hpayload : readPayload input.source (offset + markerSize + markerSize)
          (length - markerSize) with
      | error finding => rfl
      | ok segment =>
        have hle := (le_of_readPayload hpayload).1
        dsimp only
        rw [add_eq (by omega), pure_bind]

theorem checkedReadAt_eq (h : input.Valid) (hnumber : 2 * number ≤ offset + 2) :
    checkedReadAt input offset number = pure (readAt input.source offset number) := by
  have hlength := h.length_le
  have hlong : maxLong = 0xFFFFFFFF := rfl
  have hword : maxWord = 0xFFFFFFFFFFFFFFFF := rfl
  rw [checkedReadAt, checkedReadWord_eq h, pure_bind, readAt]
  cases hid : readWord input.source offset with
  | error finding => rfl
  | ok id =>
    have hoffset := le_length_of_readWord hid
    have hsize : markerSize = 2 := rfl
    dsimp only
    split
    · rfl
    · unfold checkedReadMarker readMarker
      split
      · rw [MarkerId.checkedName_eq, pure_bind]
      · split
        · rfl
        · rw [add_eq (by omega), pure_bind, add_eq (by omega), pure_bind]
          split
          · exact checkedReadSegment_eq h id
          · rfl

end Marker

namespace Scanner

def checkedTakeScanData (input : Input) (s : Stream) (offset : Nat) :
    Checked (Except ReadError (Stream × Nat)) := do
  match ← EntropyData.checkedRead input offset with
  | .error e => pure (.error e)
  | .ok data => do
    let s ← s.checkedCheckScanData data offset
    pure (.ok (s, data.size))

def checkedLeave (input : Input) (s : Stream) (m : Marker) (next : Nat) : Checked Outcome :=
  let s := { s with markers := s.markers.push m }
  if !s.isClean then pure (.finish s)
  else if m.id = MarkerId.endOfImage then
    if !s.embedded && next != input.source.length then
      pure (.finish (s.report (.dataAfterEnd next input.source.length)))
    else pure (.finish s)
  else do
    let following ← add maxLong m.number 1
    pure (.advance ⟨next, following, s⟩)

def checkedEnter (narrow : Nat → Checked Nat) (input : Input) (s : Stream) (m : Marker)
    (next : Nat) : Checked Outcome := do
  let (s, m) ← s.checkedTake narrow m
  if m.id = MarkerId.startOfScan ∧ s.isClean then do
    match ← checkedTakeScanData input s next with
    | .error e => pure (.finish (s.report (.readingError e)))
    | .ok (s, count) => do
      let behind ← add maxWord next count
      checkedLeave input s m behind
  else checkedLeave input s m next

def checkedStep (narrow : Nat → Checked Nat) (input : Input) (s : Scanner) : Checked Outcome := do
  match ← Marker.checkedReadAt input s.offset s.number with
  | .error finding => pure (.finish (s.stream.report finding))
  | .ok .fill => do
    let offset ← add maxWord s.offset 1
    pure (.advance { s with offset })
  | .ok (.marker m next) => checkedEnter narrow input s.stream m next

def checkedRun (narrow : Nat → Checked Nat) (input : Input) :
    (turns : Nat) → Scanner → Checked Stream
  | 0, _ => throw .endless
  | turns + 1, s => do
    match ← checkedStep narrow input s with
    | .finish stream => pure stream
    | .advance t => checkedRun narrow input turns t

/-- The markers so far had two bytes each at least. -/
structure Sound (s : Scanner) : Prop where
  stream : s.stream.Sound
  number_le : 2 * s.number ≤ s.offset + 2

variable {input : Input}

private theorem checkedLeave_eq {m : Marker} (hnumber : m.number < maxLong) (s : Stream)
    (next : Nat) : checkedLeave input s m next = pure (leave input.source s m next) := by
  simp only [checkedLeave, leave]
  split
  · rfl
  split
  · split <;> rfl
  · rw [add_eq hnumber, pure_bind]

private theorem number_take (s : Stream) (m : Marker) : (s.take m).2.number = m.number := by
  obtain ⟨index, hmarker⟩ := (s.takes_take m).marker
  rw [hmarker]
  rfl

theorem checkedEnter_eq (h : input.Valid) {s : Stream} (hs : s.Sound) {m : Marker}
    {offset number next : Nat} (hm : Marker.Inside input.source offset number next m)
    (hnumber : 2 * number ≤ offset + 2) :
    checkedEnter (cut maxHalf) input s m next = pure (enter input.source s m next) := by
  have hlength := h.length_le
  have hinside := hm.lt_next
  have hnext := hm.next_le
  have hsize : markerSize = 2 := rfl
  have hlong : maxLong = 0xFFFFFFFF := rfl
  have hword : maxWord = 0xFFFFFFFFFFFFFFFF := rfl
  have hcount : (s.take m).2.number < maxLong := by
    rw [number_take, hm.number_eq]
    omega
  simp only [checkedEnter, enter, Stream.checkedTake_eq hm.segment, pure_bind]
  split
  · simp only [checkedTakeScanData, takeScanData, EntropyData.checkedRead_eq h hnext, pure_bind]
    cases hread : EntropyData.read input.source next with
    | error e => rfl
    | ok data =>
      have hfound := EntropyData.size_le_of_readFrom hread
      have hempty : ByteArray.empty.size = 0 := rfl
      have hend : next + data.size < maxWord := by omega
      dsimp only
      rw [Stream.checkedCheckScanData_eq (hs.take m) hend, pure_bind, pure_bind]
      dsimp only
      rw [add_eq (Nat.le_of_lt hend), pure_bind, checkedLeave_eq hcount]
      rfl
  · exact checkedLeave_eq hcount _ _

/-- A step of the marker loop does not go wrong. -/
theorem checkedStep_eq (h : input.Valid) {s : Scanner} (hs : s.Sound) :
    checkedStep (cut maxHalf) input s = pure (step input.source s) := by
  rw [checkedStep, Marker.checkedReadAt_eq h hs.number_le, pure_bind, step]
  cases hread : Marker.readAt input.source s.offset s.number with
  | error finding => rfl
  | ok found =>
    cases found with
    | fill =>
      have hoffset := Marker.lt_length_of_readAt hread
      have hlength := h.length_lt_maxWord
      dsimp only
      rw [add_eq (by omega), pure_bind]
    | marker m next =>
      exact checkedEnter_eq h hs.stream (Marker.inside_of_readAt hread) hs.number_le

private theorem sound_of_leave {source : Source} {s : Stream} (hs : s.Sound) {m : Marker}
    {next : Nat} (hnumber : 2 * m.number ≤ next) {t : Scanner}
    (h : leave source s m next = .advance t) : t.Sound := by
  simp only [leave] at h
  split at h
  · cases h
  split at h
  · split at h <;> cases h
  · obtain rfl := Outcome.advance.inj h
    refine ⟨⟨hs.frame, hs.huffman⟩, ?_⟩
    dsimp only
    omega

/-- A step keeps what the next one relies on. -/
theorem Sound.step {source : Source} {s t : Scanner} (hs : s.Sound)
    (h : Scanner.step source s = .advance t) : t.Sound := by
  have hnumber := hs.number_le
  unfold Scanner.step at h
  split at h
  · cases h
  · obtain rfl := Outcome.advance.inj h
    exact ⟨hs.stream, Nat.le_succ_of_le hnumber⟩
  · next m next hread =>
    obtain ⟨hsame, _, hlt, _⟩ := Marker.inside_of_readAt hread
    have hsize : markerSize = 2 := rfl
    have htaken := number_take s.stream m
    have hstream := hs.stream.take m
    simp only [enter] at h
    split at h
    · rw [takeScanData] at h
      cases hdata : EntropyData.read source next with
      | error e =>
        rw [hdata] at h
        cases h
      | ok data =>
        rw [hdata] at h
        exact sound_of_leave (hstream.checkScanData _ _) (by omega) h
    · exact sound_of_leave hstream (by omega) h

/-- A turn is taken for every byte of the source at most, and one more. -/
theorem checkedRun_eq (h : input.Valid) {turns : Nat} {s : Scanner} (hs : s.Sound)
    (hpos : 0 < turns) (hturns : input.source.length < s.offset + turns) :
    checkedRun (cut maxHalf) input turns s = pure (run input.source s) := by
  induction turns generalizing s with
  | zero => omega
  | succ turns ih =>
    rw [checkedRun, checkedStep_eq h hs, pure_bind]
    cases hstep : step input.source s with
    | finish stream => rw [run_finish hstep]
    | advance t =>
      have hmove := offset_of_step hstep
      rw [run_advance hstep]
      exact ih (hs.step hstep) (by omega) (by omega)

end Scanner

namespace Stream

def checkedIdentify (s : Stream) (input : Input) : Checked Stream := do
  match ← input.read 0 markerSize with
  | .error e => pure (s.report (.cannotReadHeader e))
  | .ok bytes => do
    let id ← Marker.checkedWord bytes
    if !MarkerId.isMarker id then do
      let name ← MarkerId.checkedName id
      pure (s.report (.invalidMarker name 0))
    else if id != MarkerId.startOfImage then do
      let name ← MarkerId.checkedName id
      pure (s.report (.firstMarkerNotStart name))
    else
      pure { s with
        identified := true
        markers := s.markers.push ⟨id, none, 0, 1, .empty markerSize⟩ }

def checkedCheck (narrow : Nat → Checked Nat) (s : Stream) (input : Input) : Checked Stream :=
  Scanner.checkedRun narrow input (input.source.length + 1) ⟨markerSize, 2, s⟩

variable {input : Input} {s : Stream}

theorem checkedIdentify_eq (h : input.Valid) (s : Stream) :
    s.checkedIdentify input = pure (s.identify input.source) := by
  rw [checkedIdentify, Input.read_eq h, pure_bind, identify]
  cases hread : input.source.read 0 markerSize with
  | error e => rfl
  | ok bytes =>
    dsimp only
    rw [Marker.checkedWord_eq (Source.size_read hread), pure_bind]
    simp only [MarkerId.checkedName_eq, pure_bind]
    split
    · rfl
    · split <;> rfl

theorem Sound.identify (h : s.Sound) (source : Source) : (s.identify source).Sound := by
  unfold Stream.identify
  split
  · exact ⟨h.frame, h.huffman⟩
  · dsimp only
    split
    · exact ⟨h.frame, h.huffman⟩
    · split <;> exact ⟨h.frame, h.huffman⟩

theorem checkedCheck_eq (h : input.Valid) (hs : s.Sound) :
    s.checkedCheck (cut maxHalf) input = pure (s.check input.source) :=
  Scanner.checkedRun_eq h ⟨hs, Nat.le_refl 4⟩ (Nat.succ_pos _)
    (Nat.lt_add_left markerSize (Nat.lt_succ_self _))

end Stream

namespace Decoder

def checkedIdentify (d : Decoder) (input : Input) : Checked Decoder := do
  let stream ← d.reset.stream.checkedIdentify input
  pure { d with stream }

def checkedProcess (narrow : Nat → Checked Nat) (d : Decoder) (input : Input) :
    Checked Decoder := do
  let d ← d.checkedIdentify input
  if !d.stream.identified || d.settings.isIdentify then pure d
  else do
    let stream ← d.stream.checkedCheck narrow input
    pure { d with stream }

variable {input : Input} {d : Decoder}

theorem checkedIdentify_eq (h : input.Valid) (d : Decoder) :
    d.checkedIdentify input = pure (d.identify input.source) := by
  rw [checkedIdentify, Stream.checkedIdentify_eq h, pure_bind]
  rfl

theorem checkedProcess_eq (h : input.Valid) (d : Decoder) :
    d.checkedProcess (cut maxHalf) input = pure (d.process input.source) := by
  have hstream : (d.identify input.source).stream.Sound :=
    (Stream.sound_empty d.embedded).identify input.source
  simp only [checkedProcess, process, checkedIdentify_eq h, pure_bind]
  split
  · rfl
  · rw [Stream.checkedCheck_eq h hstream, pure_bind]

end Decoder
end ImageAudit.Jpeg
