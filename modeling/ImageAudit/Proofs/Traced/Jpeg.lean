import ImageAudit.Proofs.Jpeg.MarkerStream
import ImageAudit.Proofs.Jpeg.NumericFindings
import ImageAudit.Proofs.Recognition
import ImageAudit.Proofs.Traced.Trace

/-! Reading a JPEG stream with a record of the reads. Markers are put into the record when they are
added to the stream. -/
namespace ImageAudit.Jpeg

abbrev Traced := ImageAudit.Traced Marker

def Finding.failure? : Finding → Option ReadError
  | .readingError cause => some cause
  | _ => none

def readFailure? {α : Type} : Except Finding α → Option ReadError
  | .error finding => finding.failure?
  | .ok _ => none

namespace Marker

def tracedWord (source : Source) (offset : Nat) : Traced (Except Finding Nat) :=
  if !source.hasSection offset markerSize then
    pure (.error (.unexpectedEnd offset markerSize source.length))
  else
    return match ← Traced.read source offset markerSize with
    | .error e => .error (.readingError e)
    | .ok bytes => .ok (ByteOrder.bigEndian.decode bytes.data.toList)

def tracedPayload (source : Source) (offset count : Nat) : Traced (Except Finding Segment) :=
  if !source.hasSection offset count then
    pure (.error (.unexpectedEnd offset count source.length))
  else if count = 0 then pure (.ok (.empty offset))
  else
    return match ← Traced.read source offset count with
    | .error e => .error (.readingError e)
    | .ok data => .ok ⟨offset, data, .bigEndian, 0⟩

def tracedSegment (source : Source) (id offset number : Nat) : Traced (Except Finding Found) := do
  let start := offset + markerSize
  match ← tracedWord source start with
  | .error finding => pure (.error finding)
  | .ok length =>
    if length < markerSize then
      pure (.error (.invalidMarkerLength (MarkerId.name id) offset length))
    else
      let payload := length - markerSize
      return match ← tracedPayload source (start + markerSize) payload with
      | .error finding => .error finding
      | .ok segment =>
        .ok (.marker ⟨id, some length, offset, number, segment⟩ (start + markerSize + payload))

def tracedMarker (source : Source) (id offset number : Nat) : Traced (Except Finding Found) :=
  if !MarkerId.isMarker id || id == MarkerId.stuffing then
    pure (.error (.invalidMarker (MarkerId.name id) offset))
  else if id = MarkerId.startOfImage then pure (.error (.startNotFirst offset))
  else if MarkerId.hasLength id then tracedSegment source id offset number
  else
    pure (.ok (.marker ⟨id, none, offset, number, .empty (offset + markerSize)⟩
      (offset + markerSize)))

def tracedAt (source : Source) (offset number : Nat) : Traced (Except Finding Found) := do
  match ← tracedWord source offset with
  | .error finding => pure (.error finding)
  | .ok id =>
    if id = MarkerId.fill then pure (.ok .fill) else tracedMarker source id offset number

theorem gives_tracedWord (source : Source) (offset : Nat) :
    (tracedWord source offset).Gives source (readWord source offset)
      (readFailure? (readWord source offset)) [] := by
  rw [tracedWord, readWord]
  split
  · exact .pure _
  · have hread := Traced.Gives.read Marker source offset markerSize
    generalize source.read offset markerSize = result at hread ⊢
    obtain _ | _ := result
    · exact hread.bind_pure rfl
    · exact hread.bind_pure rfl

theorem gives_tracedPayload (source : Source) (offset count : Nat) :
    (tracedPayload source offset count).Gives source (readPayload source offset count)
      (readFailure? (readPayload source offset count)) [] := by
  rw [tracedPayload, readPayload]
  split
  · exact .pure _
  split
  · exact .pure _
  · have hread := Traced.Gives.read Marker source offset count
    generalize source.read offset count = result at hread ⊢
    obtain _ | _ := result
    · exact hread.bind_pure rfl
    · exact hread.bind_pure rfl

theorem gives_tracedSegment (source : Source) (id offset number : Nat) :
    (tracedSegment source id offset number).Gives source (readSegment source id offset number)
      (readFailure? (readSegment source id offset number)) [] := by
  have hlength := gives_tracedWord source (offset + markerSize)
  rw [tracedSegment, readSegment]
  dsimp only
  generalize readWord source (offset + markerSize) = length at hlength ⊢
  obtain finding | length := length
  · exact hlength.bind_pure rfl
  · refine hlength.bind ?_
    dsimp only
    split
    · exact .pure _
    · have hpayload := gives_tracedPayload source (offset + markerSize + markerSize)
        (length - markerSize)
      generalize readPayload source _ _ = payload at hpayload ⊢
      obtain finding | segment := payload
      · exact hpayload.bind_pure rfl
      · exact hpayload.bind_pure rfl

theorem gives_tracedMarker (source : Source) (id offset number : Nat) :
    (tracedMarker source id offset number).Gives source (readMarker source id offset number)
      (readFailure? (readMarker source id offset number)) [] := by
  rw [tracedMarker, readMarker]
  split
  · exact .pure _
  split
  · exact .pure _
  split
  · exact gives_tracedSegment source id offset number
  · exact .pure _

theorem gives_tracedAt (source : Source) (offset number : Nat) :
    (tracedAt source offset number).Gives source (readAt source offset number)
      (readFailure? (readAt source offset number)) [] := by
  have hid := gives_tracedWord source offset
  rw [tracedAt, readAt]
  generalize readWord source offset = id at hid ⊢
  obtain finding | id := id
  · exact hid.bind_pure rfl
  · refine hid.bind ?_
    dsimp only
    split
    · exact .pure _
    · exact gives_tracedMarker source id offset number

end Marker

namespace EntropyData

def tracedFrom (source : Source) (position : Nat) (data : ByteArray) (index : Nat) :
    Traced (Except ReadError ByteArray) :=
  if _ : position < source.length then do
    let count := min (source.length - position) chunkSize
    match ← Traced.read source position count with
    | .error e => pure (.error e)
    | .ok chunk =>
      let data := data ++ chunk
      match search data index with
      | .found stop => pure (.ok (data.extract 0 stop))
      | .resume index => tracedFrom source (position + count) data index
  else pure (.ok data)
termination_by source.length - position
decreasing_by
  have : 0 < chunkSize := by decide
  omega

def tracedRead (source : Source) (offset : Nat) : Traced (Except ReadError ByteArray) :=
  tracedFrom source offset .empty 0

theorem gives_tracedFrom (source : Source) (position : Nat) (data : ByteArray) (index : Nat) :
    (tracedFrom source position data index).Gives source (readFrom source position data index)
      (failure? (readFrom source position data index)) [] := by
  fun_induction readFrom source position data index with
  | case1 position data index hlt count e hr =>
    have hread := Traced.Gives.read Marker source position count
    rw [hr] at hread
    rw [tracedFrom, dif_pos hlt]
    exact hread.bind_pure rfl
  | case2 position data index hlt count chunk hr more stop hsearch =>
    have hread := Traced.Gives.read Marker source position count
    rw [hr] at hread
    rw [tracedFrom, dif_pos hlt]
    exact hread.bind_pure (by simp only [more] at hsearch; simp only [hsearch, more])
  | case3 position data index hlt count chunk hr more next hsearch ih =>
    have hread := Traced.Gives.read Marker source position count
    rw [hr] at hread
    rw [tracedFrom, dif_pos hlt]
    refine hread.bind ?_
    simp only [more] at hsearch
    simpa only [hsearch] using ih
  | case4 position data index hlt =>
    rw [tracedFrom, dif_neg hlt]
    exact .pure _

end EntropyData

namespace Scanner

def tracedScanData (source : Source) (s : Stream) (offset : Nat) :
    Traced (Except ReadError (Stream × Nat)) :=
  return (← EntropyData.tracedRead source offset).map fun data =>
    (s.checkScanData data offset, data.size)

def tracedLeave (source : Source) (s : Stream) (m : Marker) (next : Nat) : Traced Outcome := do
  Traced.complete m
  pure (leave source s m next)

def tracedEnter (source : Source) (s : Stream) (m : Marker) (next : Nat) : Traced Outcome :=
  let (s, m) := s.take m
  if m.id = MarkerId.startOfScan ∧ s.isClean then do
    match ← tracedScanData source s next with
    | .error e => pure (.finish (s.report (.readingError e)))
    | .ok (s, count) => tracedLeave source s m (next + count)
  else tracedLeave source s m next

def tracedStep (source : Source) (s : Scanner) : Traced Outcome := do
  match ← Marker.tracedAt source s.offset s.number with
  | .error finding => pure (.finish (s.stream.report finding))
  | .ok .fill => pure (.advance { s with offset := s.offset + 1 })
  | .ok (.marker m next) => tracedEnter source s.stream m next

theorem gives_tracedScanData (source : Source) (s : Stream) (offset : Nat) :
    (tracedScanData source s offset).Gives source (takeScanData source s offset)
      (failure? (takeScanData source s offset)) [] := by
  have hdata := EntropyData.gives_tracedFrom source offset .empty 0
  rw [takeScanData, EntropyData.read]
  generalize EntropyData.readFrom source offset .empty 0 = data at hdata ⊢
  obtain _ | _ := data
  · exact hdata.bind_pure rfl
  · exact hdata.bind_pure rfl

end Scanner

def Stream.Unfailed (s : Stream) : Prop := EndsIn Finding.failure? none s.findings

theorem Finding.failure?_of_isNumeric {f : Finding} (h : f.isNumeric = true) :
    f.failure? = none := by
  cases f <;> first | rfl | cases h

theorem Stream.Unfailed.append {s t : Stream} (h : s.Unfailed) {more : List Finding}
    (ht : t.findings = s.findings ++ more) (hmore : Numeric more) : t.Unfailed := by
  rw [Unfailed, ht]
  exact EndsIn.append h fun f hf => Finding.failure?_of_isNumeric (hmore f hf)

/-- A computation gets from stream `s` to stream `t`. If its record ends in a failed read, that is
also what the findings of `t` end in; the markers that were added stand in the record. -/
structure Records {α : Type} (x : Traced α) (source : Source) (a : α) (s t : Stream)
    (failure : Option ReadError) (markers : List Marker) : Prop where
  gives : x.Gives source a failure markers
  findings : EndsIn Finding.failure? failure t.findings
  markers_eq : t.markers.toList = s.markers.toList ++ markers

namespace Scanner

theorem records_tracedLeave (source : Source) {s : Stream} (h : s.Unfailed) (m : Marker)
    (next : Nat) :
    Records (tracedLeave source s m next) source (leave source s m next) s
      (leave source s m next).stream none [m] := by
  have hgives : (tracedLeave source s m next).Gives source (leave source s m next) none [m] :=
    (Traced.Gives.complete m).bind (.pure _)
  have hmarkers : (s.markers.push m).toList = s.markers.toList ++ [m] := Array.toList_push
  simp only [leave] at hgives ⊢
  split at hgives
  · next hdirty =>
    rw [if_pos hdirty]
    exact ⟨hgives, h, hmarkers⟩
  split at hgives
  · next hdirty hend =>
    rw [if_neg hdirty, if_pos hend]
    split at hgives
    · next hmore =>
      rw [if_pos hmore]
      exact ⟨hgives, EndsIn.append h (EndsIn.singleton Finding.failure? (.dataAfterEnd _ _)),
        hmarkers⟩
    · next hmore =>
      rw [if_neg hmore]
      exact ⟨hgives, h, hmarkers⟩
  · next hdirty hend =>
    rw [if_neg hdirty, if_neg hend]
    exact ⟨hgives, h, hmarkers⟩

/-- A step that fails to read ends the loop. -/
theorem records_tracedEnter (source : Source) {s : Stream} (h : s.Unfailed) (m : Marker)
    (next : Nat) :
    ∃ failure markers, Records (tracedEnter source s m next) source (enter source s m next) s
        (enter source s m next).stream failure markers ∧
      ∀ t, enter source s m next = .advance t → failure = none := by
  obtain ⟨more, hfindings, hmore⟩ := s.exists_findings_take m
  have htaken : (s.take m).1.Unfailed := h.append hfindings hmore
  have hmarkers := (s.takes_take m).markers
  rw [tracedEnter, enter]
  generalize s.take m = taken at htaken hmarkers ⊢
  obtain ⟨s', m'⟩ := taken
  dsimp only at htaken hmarkers ⊢
  split
  · have hdata := gives_tracedScanData source s' next
    rw [takeScanData] at hdata ⊢
    generalize EntropyData.read source next = data at hdata ⊢
    obtain cause | found := data
    · refine ⟨some cause, [], ⟨hdata.bind_pure rfl, ?_, ?_⟩, fun t ht => by cases ht⟩
      · exact EndsIn.append htaken (EndsIn.singleton Finding.failure? (.readingError cause))
      · simp [Except.map, Outcome.stream, Stream.report, hmarkers]
    · obtain ⟨checked, hchecked, hnumeric⟩ := s'.exists_findings_checkScanData found next
      have hunfailed : (s'.checkScanData found next).Unfailed := htaken.append hchecked hnumeric
      have hleave := records_tracedLeave source hunfailed m' (next + found.size)
      refine ⟨none, [m'], ⟨hdata.bind hleave.gives, hleave.findings, ?_⟩, fun _ _ => rfl⟩
      rw [← hmarkers, ← (checkScanData_keeps s' found next).1]
      exact hleave.markers_eq
  · have hleave := records_tracedLeave source htaken m' next
    exact ⟨none, [m'], ⟨hleave.gives, hleave.findings, hmarkers ▸ hleave.markers_eq⟩,
      fun _ _ => rfl⟩

theorem records_tracedStep (source : Source) {s : Scanner} (h : s.stream.Unfailed) :
    ∃ failure markers, Records (tracedStep source s) source (step source s) s.stream
        (step source s).stream failure markers ∧
      ∀ t, step source s = .advance t → failure = none := by
  have hread := Marker.gives_tracedAt source s.offset s.number
  rw [tracedStep, step]
  generalize Marker.readAt source s.offset s.number = result at hread ⊢
  obtain finding | _ | ⟨m, next⟩ := result
  · refine ⟨finding.failure?, [], ⟨hread.bind_pure rfl, ?_, ?_⟩, fun t ht => by cases ht⟩
    · exact EndsIn.append h (EndsIn.singleton Finding.failure? finding)
    · exact (List.append_nil _).symm
  · exact ⟨none, [], ⟨hread.bind_pure rfl, h, (List.append_nil _).symm⟩, fun _ _ => rfl⟩
  · obtain ⟨failure, markers, henter, hnone⟩ := records_tracedEnter source h m next
    exact ⟨failure, markers, ⟨hread.bind henter.gives, henter.findings, henter.markers_eq⟩, hnone⟩

theorem value_tracedEnter (source : Source) (s : Stream) (m : Marker) (next : Nat) :
    (tracedEnter source s m next).value = enter source s m next := by
  simp only [tracedEnter, enter]
  split
  · rw [Traced.value_bind, (gives_tracedScanData source _ next).value_eq]
    generalize takeScanData source _ next = data
    obtain _ | _ := data <;> rfl
  · rfl

theorem value_tracedStep (source : Source) (s : Scanner) :
    (tracedStep source s).value = step source s := by
  rw [tracedStep, step, Traced.value_bind, (Marker.gives_tracedAt source _ _).value_eq]
  generalize Marker.readAt source s.offset s.number = found
  obtain _ | _ | _ := found
  · rfl
  · rfl
  · exact value_tracedEnter source _ _ _

def tracedRun (source : Source) (s : Scanner) : Traced Stream :=
  let first := tracedStep source s
  match h : first.value with
  | .finish stream => ⟨stream, first.acts⟩
  | .advance t =>
    have := offset_of_step ((value_tracedStep source s).symm.trans h)
    let rest := tracedRun source t
    ⟨rest.value, first.acts ++ rest.acts⟩
termination_by source.length - s.offset

def tracedRest (loop : Scanner → Traced Stream) : Outcome → Traced Stream
  | .finish stream => pure stream
  | .advance t => loop t

theorem tracedRun_eq (source : Source) (s : Scanner) :
    tracedRun source s = tracedStep source s >>= tracedRest (tracedRun source) := by
  rw [tracedRun]
  dsimp only [bind]
  split
  · next h => simp only [h, tracedRest, pure, List.append_nil]
  · next h => simp only [h, tracedRest]

theorem records_tracedRun (source : Source) {s : Scanner} (h : s.stream.Unfailed) :
    ∃ failure markers, Records (tracedRun source s) source (run source s) s.stream
      (run source s) failure markers := by
  fun_induction run source s with
  | case1 s stream hstep =>
    obtain ⟨failure, markers, hrecords, _⟩ := records_tracedStep source h
    rw [hstep] at hrecords
    rw [tracedRun_eq]
    exact ⟨failure, markers, hrecords.gives.bind_pure rfl, hrecords.findings,
      hrecords.markers_eq⟩
  | case2 s t hstep _ ih =>
    obtain ⟨failure, markers, hrecords, hnone⟩ := records_tracedStep source h
    obtain rfl := hnone t hstep
    rw [hstep] at hrecords
    obtain ⟨failure, more, hrest⟩ := ih hrecords.findings
    rw [tracedRun_eq]
    refine ⟨failure, markers ++ more, hrecords.gives.bind hrest.gives, hrest.findings, ?_⟩
    have hfirst : t.stream.markers.toList = s.stream.markers.toList ++ markers :=
      hrecords.markers_eq
    rw [hrest.markers_eq, hfirst, List.append_assoc]

end Scanner

namespace Stream

def tracedIdentify (s : Stream) (source : Source) : Traced Stream := do
  match ← Traced.read source 0 markerSize with
  | .error e => pure (s.report (.cannotReadHeader e))
  | .ok bytes =>
    let id := ByteOrder.bigEndian.decode bytes.data.toList
    if !MarkerId.isMarker id then pure (s.report (.invalidMarker (MarkerId.name id) 0))
    else if id != MarkerId.startOfImage then
      pure (s.report (.firstMarkerNotStart (MarkerId.name id)))
    else
      let first : Marker := ⟨id, none, 0, 1, .empty markerSize⟩
      Traced.complete first
      pure { s with identified := true, markers := s.markers.push first }

/-- Where the first bytes can be read the stream is identified, or a finding tells why not. -/
theorem records_tracedIdentify {source : Source} {bytes : ByteArray}
    (hread : source.read 0 markerSize = .ok bytes) {s : Stream} (h : s.Unfailed) :
    ∃ markers, Records (s.tracedIdentify source) source (s.identify source) s
      (s.identify source) none markers := by
  have hfirst := Traced.Gives.read Marker source 0 markerSize
  rw [hread] at hfirst
  rw [tracedIdentify, identify, hread]
  dsimp only
  generalize hid : ByteOrder.bigEndian.decode bytes.data.toList = id
  split
  · next hnot =>
    refine ⟨[], hfirst.bind_pure ?_, EndsIn.append h (EndsIn.singleton Finding.failure?
      (.invalidMarker _ _)), (List.append_nil _).symm⟩
    simp only [hid, if_pos hnot]
  · next hmarker =>
    split
    · next hnot =>
      refine ⟨[], hfirst.bind_pure ?_, EndsIn.append h (EndsIn.singleton Finding.failure?
        (.firstMarkerNotStart _)), (List.append_nil _).symm⟩
      simp only [hid, if_neg hmarker, if_pos hnot]
    · next hstart =>
      refine ⟨[⟨id, none, 0, 1, .empty markerSize⟩], hfirst.bind ?_, h, Array.toList_push⟩
      simp only [hid, if_neg hmarker, if_neg hstart]
      exact (Traced.Gives.complete _).bind (.pure _)

end Stream

namespace Decoder

def tracedIdentify (d : Decoder) (source : Source) : Traced Decoder :=
  return { d with stream := ← d.reset.stream.tracedIdentify source }

def tracedProcess (d : Decoder) (source : Source) : Traced Decoder := do
  let d ← d.tracedIdentify source
  if !d.stream.identified || d.settings.isIdentify then pure d
  else return { d with stream := ← Scanner.tracedRun source ⟨markerSize, 2, d.stream⟩ }

variable {d : Decoder} {source : Source}

/-- Where the first bytes cannot be read that is all that happens. -/
theorem process_of_unreadable {cause : ReadError}
    (h : source.read 0 markerSize = .error cause) :
    (d.tracedProcess source).value = d.process source ∧
      (d.tracedProcess source).acts = [.read 0 markerSize (some cause)] ∧
      (d.process source).stream.identified = false ∧
      (d.process source).stream.findings = [.cannotReadHeader cause] := by
  have htraced : d.tracedIdentify source =
      ⟨d.identify source, [.read 0 markerSize (some cause)]⟩ := by
    simp only [tracedIdentify, Stream.tracedIdentify, identify, Stream.identify, Traced.read, h]
    rfl
  have hidentify :
      (d.identify source).stream = d.reset.stream.report (.cannotReadHeader cause) := by
    rw [identify, Stream.identify, h]
  have hnot : (d.identify source).stream.identified = false := by
    rw [hidentify]
    rfl
  have hdone : d.tracedProcess source =
      ⟨d.identify source, [.read 0 markerSize (some cause)]⟩ := by
    rw [tracedProcess, htraced]
    dsimp only [bind]
    rw [hnot]
    rfl
  rw [process_of_not_identified hnot, hdone]
  refine ⟨rfl, rfl, hnot, ?_⟩
  rw [hidentify]
  rfl

/-- Where the first bytes can be read the findings end in a failed read exactly when the record
does, and the markers are those in the record. -/
theorem exists_gives_tracedProcess {bytes : ByteArray}
    (h : source.read 0 markerSize = .ok bytes) :
    ∃ failure markers, (d.tracedProcess source).Gives source (d.process source) failure markers ∧
      EndsIn Finding.failure? failure (d.process source).stream.findings ∧
      (d.process source).stream.markers.toList = markers := by
  have hempty : d.reset.stream.Unfailed := EndsIn.nil
  obtain ⟨markers, hfirst⟩ := Stream.records_tracedIdentify h hempty
  have hidentify : (d.tracedIdentify source).Gives source (d.identify source) none markers :=
    hfirst.gives.bind_pure rfl
  have hmarkers : (d.identify source).stream.markers.toList = markers := hfirst.markers_eq
  rw [process, tracedProcess]
  split
  · next hdone =>
    exact ⟨none, markers, hidentify.bind_pure (if_pos hdone), hfirst.findings, hmarkers⟩
  · next hmore =>
    have hstart : (⟨markerSize, 2, (d.identify source).stream⟩ : Scanner).stream.Unfailed :=
      hfirst.findings
    obtain ⟨failure, more, hrun⟩ := Scanner.records_tracedRun source hstart
    refine ⟨failure, markers ++ more, hidentify.bind ?_, hrun.findings, ?_⟩
    · rw [if_neg hmore]
      exact hrun.gives.bind_pure rfl
    · rw [← hmarkers]
      exact hrun.markers_eq

end Decoder
end ImageAudit.Jpeg
