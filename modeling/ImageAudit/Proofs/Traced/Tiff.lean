import ImageAudit.Proofs.Tiff.Placement
import ImageAudit.Proofs.Traced.Trace

/-! Reading a TIFF file with a record of the reads. Main directories are put into the record when
they are added to the chain. Streams inside the file are left to their own decoder: what it reads is
not a read of the one that goes over the directories. -/
namespace ImageAudit.Tiff

abbrev Traced := ImageAudit.Traced DirectoryTree

def Obstacle.failure? {α : Type} : Except Obstacle α → Option ReadError
  | .error (.failure cause) => some cause
  | _ => none

namespace Header

def tracedRead (source : Source) : Traced (Except Finding Header) :=
  return match ← Traced.read source 0 signatureSize with
  | .error cause => .error (.cannotReadHeader cause)
  | .ok bytes => ofBytes bytes.data.toList

def tracedFirstOffset (h : Header) (source : Source) : Traced (Except Obstacle Nat) :=
  return match ← Traced.read source signatureSize (h.size - signatureSize) with
  | .error cause => .error (.failure cause)
  | .ok bytes =>
    match h.takeOffset ⟨signatureSize, bytes, h.order, 0⟩ source.length with
    | .error finding => .error (.defect finding)
    | .ok offset => .ok offset

theorem gives_tracedRead (source : Source) :
    (tracedRead source).Gives source (read source) (failure? (source.read 0 signatureSize)) [] :=
  (Traced.Gives.read _ source 0 signatureSize).bind_pure rfl

theorem gives_tracedFirstOffset (h : Header) (source : Source) :
    (h.tracedFirstOffset source).Gives source (h.firstOffset source)
      (Obstacle.failure? (h.firstOffset source)) [] := by
  have hread := Traced.Gives.read DirectoryTree source signatureSize (h.size - signatureSize)
  rw [firstOffset]
  cases hr : source.read signatureSize (h.size - signatureSize) with
  | error cause =>
    rw [hr] at hread
    exact hread.bind_pure rfl
  | ok bytes =>
    rw [hr] at hread
    dsimp only
    cases ht : h.takeOffset ⟨signatureSize, bytes, h.order, 0⟩ source.length with
    | error finding => exact hread.bind_pure (by simp only [ht])
    | ok offset => exact hread.bind_pure (by simp only [ht])

end Header

namespace Directory

def tracedPart (source : Source) (offset start count : Nat) :
    Traced (Except Obstacle ByteArray) :=
  if !source.hasSection start count then
    pure (.error (.defect (.invalidFileOffset offset source.length)))
  else
    return match ← Traced.read source start count with
    | .error cause => .error (.failure cause)
    | .ok bytes => .ok bytes

def tracedBytes (e : Encoding) (source : Source) (offset : Nat) :
    Traced (Except Obstacle (Nat × Segment)) := do
  match ← tracedPart source offset offset (countSize e.big) with
  | .error obstacle => pure (.error obstacle)
  | .ok bytes =>
    let (count, raw) := Segment.uint ⟨offset, bytes, e.order, 0⟩ (countSize e.big)
    if count < minTags then pure (.error (.defect (.tooFewTags offset count minTags)))
    else
      return match ← tracedPart source offset (offset + countSize e.big) (bodySize e.big count) with
      | .error obstacle => .error obstacle
      | .ok body => .ok (count, raw.append body)

theorem gives_tracedPart (source : Source) (offset start count : Nat) :
    (tracedPart source offset start count).Gives source (readPart source offset start count)
      (Obstacle.failure? (readPart source offset start count)) [] := by
  rw [tracedPart, readPart]
  split
  · exact .pure _
  · have hread := Traced.Gives.read DirectoryTree source start count
    cases hr : source.read start count with
    | error cause =>
      rw [hr] at hread
      exact hread.bind_pure rfl
    | ok bytes =>
      rw [hr] at hread
      exact hread.bind_pure rfl

theorem gives_tracedBytes (e : Encoding) (source : Source) (offset : Nat) :
    (tracedBytes e source offset).Gives source (readBytes e source offset)
      (Obstacle.failure? (readBytes e source offset)) [] := by
  have hfirst := gives_tracedPart source offset offset (countSize e.big)
  rw [tracedBytes, readBytes]
  cases hcount : readPart source offset offset (countSize e.big) with
  | error obstacle =>
    rw [hcount] at hfirst
    cases obstacle <;> exact hfirst.bind_pure rfl
  | ok bytes =>
    rw [hcount] at hfirst
    refine hfirst.bind ?_
    dsimp only
    split
    · exact .pure _
    · have hsecond := gives_tracedPart source offset (offset + countSize e.big)
        (bodySize e.big (Segment.uint ⟨offset, bytes, e.order, 0⟩ (countSize e.big)).1)
      generalize readPart source offset (offset + countSize e.big) _ = body at hsecond ⊢
      obtain (_ | _) | _ := body
      · exact hsecond.bind_pure rfl
      · exact hsecond.bind_pure rfl
      · exact hsecond.bind_pure rfl

end Directory

namespace Entry

def tracedLoad (entry : Entry) (t : FieldType) (source : Source) (offset : Nat) (budget : Budget) :
    Traced (Loaded (Option ByteArray)) :=
  let odd := if offset % 2 = 1 then [Finding.oddFieldOffset entry.tag offset] else []
  let size := t.size * entry.count
  let charge := saturate (t.charge entry.count)
  if !source.hasSection offset size then
    pure ⟨.ok none,
      odd ++ [.invalidFieldWindow entry.tag offset (shownSize size) source.length], budget⟩
  else if maxFieldCharge < charge then
    pure ⟨.ok none, odd ++ [.fieldDataTooLarge entry.tag charge maxFieldCharge], budget⟩
  else match budget.take? charge with
    | none =>
      pure ⟨.ok none,
        odd ++ [.budgetExhausted entry.tag charge budget.remaining budget.limit], budget⟩
    | some budget => return ⟨(← Traced.read source offset size).map some, odd, budget⟩

def tracedResolve (entry : Entry) (e : Encoding) (source : Source) (budget : Budget) :
    Traced (Loaded Field) :=
  let bare (valueOffset : Option Nat) (raw : ByteArray) : Field :=
    ⟨entry.tag, entry.typeId, entry.count, valueOffset, raw, []⟩
  match FieldType.ofId? entry.typeId with
  | none =>
    pure ⟨.ok (bare none entry.valueArea), [.unknownFieldType entry.tag entry.typeId], budget⟩
  | some t =>
    if t.fitsInline entry.count e.big then
      let raw := entry.valueArea.extract 0 (t.size * entry.count)
      let (field, findings) := entry.decode e t none raw
      pure ⟨.ok field, findings, budget⟩
    else do
      let offset := e.order.decode entry.valueArea.data.toList
      let loaded ← entry.tracedLoad t source offset budget
      pure <| match loaded.result with
      | .error error => ⟨.error error, loaded.findings, loaded.budget⟩
      | .ok none => ⟨.ok (bare (some offset) .empty), loaded.findings, loaded.budget⟩
      | .ok (some raw) =>
        let (field, findings) := entry.decode e t (some offset) raw
        ⟨.ok field, loaded.findings ++ findings, loaded.budget⟩

theorem gives_tracedLoad (entry : Entry) (source : Source) (t : FieldType) (offset : Nat)
    (budget : Budget) :
    (entry.tracedLoad t source offset budget).Gives source (entry.load t source offset budget)
      (failure? (entry.load t source offset budget).result) [] := by
  rw [tracedLoad, load]
  split
  · exact .pure _
  split
  · exact .pure _
  cases budget.take? (saturate (t.charge entry.count)) with
  | none => exact .pure _
  | some rest =>
    have hread := Traced.Gives.read DirectoryTree source offset (t.size * entry.count)
    dsimp only
    generalize source.read offset (t.size * entry.count) = result at hread ⊢
    obtain _ | _ := result
    · exact hread.bind_pure rfl
    · exact hread.bind_pure rfl

theorem gives_tracedResolve (entry : Entry) (e : Encoding) (source : Source) (budget : Budget) :
    (entry.tracedResolve e source budget).Gives source (entry.resolve e source budget)
      (failure? (entry.resolve e source budget).result) [] := by
  rw [tracedResolve, resolve]
  cases FieldType.ofId? entry.typeId with
  | none => exact .pure _
  | some t =>
    dsimp only
    split
    · exact .pure _
    · have hload := gives_tracedLoad entry source t
        (e.order.decode entry.valueArea.data.toList) budget
      generalize entry.load t source _ budget = loaded at hload ⊢
      obtain ⟨_ | _ | _, findings, budget⟩ := loaded
      · exact hload.bind_pure rfl
      · exact hload.bind_pure rfl
      · exact hload.bind_pure rfl

end Entry

def Field.tracedRead (e : Encoding) (source : Source) (cursor : Segment) (budget : Budget) :
    Traced (Loaded Field × Segment) :=
  let (entry, cursor) := Entry.read e cursor
  return (← entry.tracedResolve e source budget, cursor)

theorem Field.gives_tracedRead (e : Encoding) (source : Source) (cursor : Segment)
    (budget : Budget) :
    (tracedRead e source cursor budget).Gives source (read e source cursor budget)
      (failure? (read e source cursor budget).1.result) [] :=
  (Entry.gives_tracedResolve _ e source budget).bind_pure rfl

namespace Intake

def tracedStep (c : Context) (s : Intake) : Traced (Except ReadError Unit × Intake) := do
  let (loaded, cursor) ← Field.tracedRead c.encoding c.source s.cursor s.budget
  let s := { s with cursor, budget := loaded.budget, findings := s.findings ++ loaded.findings }
  pure <| match loaded.result with
  | .error cause => (.error cause, s)
  | .ok field => (.ok (), s.accept field)

def tracedRun (c : Context) : (count : Nat) → Intake → Traced (Except ReadError Unit × Intake)
  | 0, s => pure (.ok (), s)
  | count + 1, s => do
    match ← s.tracedStep c with
    | (.error cause, s) => pure (.error cause, s)
    | (.ok (), s) => tracedRun c count s

theorem gives_tracedStep (c : Context) (s : Intake) :
    (s.tracedStep c).Gives c.source (s.step c) (failure? (s.step c).1) [] := by
  have hfield := Field.gives_tracedRead c.encoding c.source s.cursor s.budget
  rw [tracedStep, step]
  generalize Field.read c.encoding c.source s.cursor s.budget = read at hfield ⊢
  obtain ⟨⟨_ | _, findings, budget⟩, cursor⟩ := read
  · exact hfield.bind_pure rfl
  · exact hfield.bind_pure rfl

theorem gives_tracedRun (c : Context) (count : Nat) (s : Intake) :
    (s.tracedRun c count).Gives c.source (s.run c count) (failure? (s.run c count).1) [] := by
  induction count generalizing s with
  | zero => exact .pure _
  | succ count ih =>
    have hstep := gives_tracedStep c s
    rw [tracedRun, run]
    generalize s.step c = result at hstep ⊢
    obtain ⟨_ | _, t⟩ := result
    · exact hstep.bind_pure rfl
    · exact hstep.bind (ih t)

end Intake

def Directory.tracedRead (c : Context) (kind : DirectoryKind) (index offset : Nat)
    (budget : Budget) : Traced DirectoryReading := do
  let parity := parityFindings offset
  match ← tracedBytes c.encoding c.source offset with
  | .error (.defect finding) => pure ⟨.ok none, (parity ++ [finding]).map .tiff, budget⟩
  | .error (.failure cause) => pure ⟨.error cause, parity.map .tiff, budget⟩
  | .ok (count, raw) =>
    let (result, s) ← (Intake.start raw budget).tracedRun c count
    let findings := (parity ++ s.findings.toList).map ImageAudit.Finding.tiff
    pure <| match result with
    | .error cause => ⟨.error cause, findings, s.budget⟩
    | .ok () =>
      let d := s.directory c.encoding.big offset
      ⟨.ok (some d), findings ++ rulesFindings c kind index d, s.budget⟩

theorem Directory.gives_tracedRead (c : Context) (kind : DirectoryKind) (index offset : Nat)
    (budget : Budget) :
    (tracedRead c kind index offset budget).Gives c.source (read c kind index offset budget)
      (failure? (read c kind index offset budget).result) [] := by
  have hbytes := gives_tracedBytes c.encoding c.source offset
  rw [tracedRead, read]
  dsimp only
  generalize readBytes c.encoding c.source offset = bytes at hbytes ⊢
  obtain (_ | _) | ⟨count, raw⟩ := bytes
  · exact hbytes.bind_pure rfl
  · exact hbytes.bind_pure rfl
  · refine hbytes.bind ?_
    have hrun := Intake.gives_tracedRun c count (.start raw budget)
    dsimp only
    generalize (Intake.start raw budget).run c count = result at hrun ⊢
    obtain ⟨_ | _, s⟩ := result
    · exact hrun.bind_pure rfl
    · exact hrun.bind_pure rfl

namespace Survey

def tracedEnter (c : Context) (kind : DirectoryKind) (index offset : Nat) (s : Survey) :
    Traced (Step (Option Directory)) :=
  if s.visited.contains offset then pure (.ok none (s.report (.directoryRepeated offset)))
  else do
    let reading ← Directory.tracedRead c kind index offset s.budget
    pure <| match reading.result with
    | .error cause => .error cause (s.takeReading offset reading)
    | .ok d => .ok d (s.takeReading offset reading)

def tracedEach (read : Nat → Survey → Traced (Step (Option DirectoryTree))) :
    (offsets : List Nat) → (trees : Array DirectoryTree) → Survey →
      Traced (Step (Array DirectoryTree))
  | [], trees, s => pure (.ok trees s)
  | offset :: rest, trees, s => do
    match ← read offset s with
    | .error cause s => pure (.error cause s)
    | .ok none s => tracedEach read rest trees s
    | .ok (some tree) s => tracedEach read rest (trees.push tree) s

def tracedTree (c : Context) (index : Nat) : (levels : Nat) → DirectoryKind → (offset : Nat) →
    Survey → Traced (Step (Option DirectoryTree))
  | 0, kind, offset, s => do
    pure <| match ← s.tracedEnter c kind index offset with
    | .error cause s => .error cause s
    | .ok none s => .ok none s
    | .ok (some d) s =>
      .ok (some (.node d [] []))
        (if d.hasChildren then s.report (.nestingTooDeep offset maxDepth) else s)
  | levels + 1, kind, offset, s => do
    match ← s.tracedEnter c kind index offset with
    | .error cause s => pure (.error cause s)
    | .ok none s => pure (.ok none s)
    | .ok (some d) s =>
      match ← tracedEach (tracedTree c index levels .sub) d.subOffsets #[] s with
      | .error cause s => pure (.error cause s)
      | .ok subs s =>
        pure <| match ← tracedEach (tracedTree c index levels .gps) d.gpsOffset?.toList #[] s with
        | .error cause s => .error cause s
        | .ok gps s => .ok (some (.node d subs.toList gps.toList)) s

def tracedMain (c : Context) (offset : Nat) (s : Survey) : Traced (Step (Option DirectoryTree)) :=
  tracedTree c s.directories.size maxDepth .main offset s

def Step.failure? {α : Type} : Step α → Option ReadError
  | .error cause _ => some cause
  | .ok _ _ => none

theorem gives_tracedEnter (c : Context) (kind : DirectoryKind) (index offset : Nat) (s : Survey) :
    (s.tracedEnter c kind index offset).Gives c.source (s.enter c kind index offset)
      (Step.failure? (s.enter c kind index offset)) [] := by
  rw [tracedEnter, enter]
  split
  · exact .pure _
  · have hread := Directory.gives_tracedRead c kind index offset s.budget
    generalize Directory.read c kind index offset s.budget = reading at hread ⊢
    obtain ⟨_ | _, findings, budget⟩ := reading
    · exact hread.bind_pure rfl
    · exact hread.bind_pure rfl

theorem gives_tracedEach {source : Source}
    {traced : Nat → Survey → Traced (Step (Option DirectoryTree))}
    {read : Nat → Survey → Step (Option DirectoryTree)}
    (h : ∀ offset s, (traced offset s).Gives source (read offset s)
      (Step.failure? (read offset s)) [])
    (offsets : List Nat) (trees : Array DirectoryTree) (s : Survey) :
    (tracedEach traced offsets trees s).Gives source (readEach read offsets trees s)
      (Step.failure? (readEach read offsets trees s)) [] := by
  induction offsets generalizing trees s with
  | nil => exact .pure _
  | cons offset rest ih =>
    have hfirst := h offset s
    rw [tracedEach, readEach]
    generalize read offset s = result at hfirst ⊢
    obtain ⟨_ | tree, t⟩ | ⟨cause, t⟩ := result
    · exact hfirst.bind (ih trees t)
    · exact hfirst.bind (ih (trees.push tree) t)
    · exact hfirst.bind_pure rfl

theorem gives_tracedTree (c : Context) (index levels : Nat) (kind : DirectoryKind) (offset : Nat)
    (s : Survey) :
    (tracedTree c index levels kind offset s).Gives c.source (readTree c index levels kind offset s)
      (Step.failure? (readTree c index levels kind offset s)) [] := by
  induction levels generalizing kind offset s with
  | zero =>
    have henter := gives_tracedEnter c kind index offset s
    rw [tracedTree, readTree]
    generalize s.enter c kind index offset = result at henter ⊢
    obtain ⟨_ | d, t⟩ | ⟨cause, t⟩ := result
    · exact henter.bind_pure rfl
    · exact henter.bind_pure rfl
    · exact henter.bind_pure rfl
  | succ levels ih =>
    have henter := gives_tracedEnter c kind index offset s
    rw [tracedTree, readTree]
    generalize s.enter c kind index offset = result at henter ⊢
    obtain ⟨_ | d, t⟩ | ⟨cause, t⟩ := result
    · exact henter.bind_pure rfl
    · refine henter.bind ?_
      have hsubs := gives_tracedEach (fun offset s => ih .sub offset s) d.subOffsets #[] t
      dsimp only
      generalize readEach (readTree c index levels .sub) d.subOffsets #[] t = subs at hsubs ⊢
      obtain ⟨subs, u⟩ | ⟨cause, u⟩ := subs
      · refine hsubs.bind ?_
        have hgps := gives_tracedEach (fun offset s => ih .gps offset s) d.gpsOffset?.toList #[] u
        dsimp only
        generalize readEach (readTree c index levels .gps) d.gpsOffset?.toList #[] u = gps at hgps ⊢
        obtain ⟨gps, v⟩ | ⟨cause, v⟩ := gps
        · exact hgps.bind_pure rfl
        · exact hgps.bind_pure rfl
      · exact hsubs.bind_pure rfl
    · exact henter.bind_pure rfl

theorem gives_tracedMain (c : Context) (offset : Nat) (s : Survey) :
    (s.tracedMain c offset).Gives c.source (s.readMain c offset)
      (Step.failure? (s.readMain c offset)) [] :=
  gives_tracedTree c _ _ _ _ _

def tracedWalk (c : Context) (offset : Nat) (s : Survey) : Traced (Step Unit) :=
  if offset = 0 then pure (.ok () s)
  else
    let top := s.tracedMain c offset
    match h : top.value with
    | .error cause t => ⟨.error cause t, top.acts⟩
    | .ok none t => ⟨.ok () t, top.acts⟩
    | .ok (some tree) t =>
      have := unvisited_readMain ((gives_tracedMain c offset s).value_eq.symm.trans h)
      let rest := do
        Traced.complete tree
        tracedWalk c tree.directory.nextOffset (t.addMain tree)
      ⟨rest.value, top.acts ++ rest.acts⟩
termination_by s.unvisited c.source.length

def tracedRest (follow : Nat → Survey → Traced (Step Unit)) :
    Step (Option DirectoryTree) → Traced (Step Unit)
  | .error cause t => pure (.error cause t)
  | .ok none t => pure (.ok () t)
  | .ok (some tree) t => do
    Traced.complete tree
    follow tree.directory.nextOffset (t.addMain tree)

theorem tracedWalk_eq {c : Context} {offset : Nat} (h0 : offset ≠ 0) (s : Survey) :
    s.tracedWalk c offset = s.tracedMain c offset >>= tracedRest (tracedWalk c) := by
  rw [tracedWalk, if_neg h0]
  dsimp only [bind]
  split
  · next h => simp only [h, tracedRest, pure, List.append_nil]
  · next h => simp only [h, tracedRest, pure, List.append_nil]
  · next h => simp only [h, tracedRest, bind]

/-- The record of a walk holds the main directories that were read in full. -/
theorem exists_gives_tracedWalk (c : Context) (offset : Nat) (s : Survey) :
    ∃ trees, Follows c offset s trees (s.walk c offset) ∧
      (s.tracedWalk c offset).Gives c.source (s.walk c offset)
        (Step.failure? (s.walk c offset)) trees := by
  induction offset, s using walk.induct c with
  | case1 s =>
    rw [walk_zero, tracedWalk, if_pos rfl]
    exact ⟨[], .done, .pure _⟩
  | case2 offset s h0 cause t hr =>
    have hmain := gives_tracedMain c offset s
    rw [hr] at hmain
    rw [walk_fail h0 hr, tracedWalk_eq h0]
    exact ⟨[], .fail h0 hr, hmain.bind_pure rfl⟩
  | case3 offset s h0 t hr =>
    have hmain := gives_tracedMain c offset s
    rw [hr] at hmain
    rw [walk_halt h0 hr, tracedWalk_eq h0]
    exact ⟨[], .halt h0 hr, hmain.bind_pure rfl⟩
  | case4 offset s h0 tree t hr _ ih =>
    obtain ⟨trees, hfollows, hrest⟩ := ih
    have hmain := gives_tracedMain c offset s
    rw [hr] at hmain
    rw [walk_next h0 hr, tracedWalk_eq h0]
    exact ⟨tree :: trees, .next h0 hr hfollows,
      hmain.bind ((Traced.Gives.complete tree).bind hrest)⟩

end Survey

namespace Description

def tracedWalk (d : Description) (c : Context) (offset : Nat) :
    Traced (Except ReadError Unit × Description) :=
  return match ← d.survey.tracedWalk c offset with
  | .error cause survey => (.error cause, { d with survey })
  | .ok () survey => (.ok (), { d with survey }.setFlavour)

def tracedHeader (d : Description) (source : Source) : Traced Description :=
  return match ← Header.tracedRead source with
  | .error finding => d.report finding
  | .ok header => { d with header := some header }

def tracedCheck (d : Description) (settings : Settings) (header : Header) (source : Source) :
    Traced Description := do
  match ← header.tracedFirstOffset source with
  | .error (.defect finding) => pure (d.report finding)
  | .error (.failure cause) => pure (d.report (.readingError cause))
  | .ok offset =>
    return match ← d.tracedWalk ⟨source, settings, header.encoding⟩ offset with
    | (.error cause, d) => d.report (.readingError cause)
    | (.ok (), d) => if settings.baseline then d.checkBaseline else d

theorem gives_tracedHeader (d : Description) (source : Source) :
    (d.tracedHeader source).Gives source (d.readHeader source)
      (failure? (source.read 0 Header.signatureSize)) [] :=
  (Header.gives_tracedRead source).bind_pure rfl

theorem exists_gives_tracedWalk (d : Description) (c : Context) (offset : Nat) :
    ∃ trees, Survey.Follows c offset d.survey trees (d.survey.walk c offset) ∧
      (d.tracedWalk c offset).Gives c.source (d.walk c offset)
        (failure? (d.walk c offset).1) trees := by
  obtain ⟨trees, hfollows, hwalk⟩ := Survey.exists_gives_tracedWalk c offset d.survey
  refine ⟨trees, hfollows, ?_⟩
  rw [walk]
  generalize d.survey.walk c offset = result at hwalk ⊢
  obtain ⟨_, t⟩ | ⟨cause, t⟩ := result
  · exact hwalk.bind_pure rfl
  · exact hwalk.bind_pure rfl

end Description

namespace Decoder

def tracedIdentify (d : Decoder) (source : Source) : Traced Decoder :=
  return { d with description := ← d.reset.description.tracedHeader source }

def tracedProcess (d : Decoder) (source : Source) : Traced Decoder := do
  let d ← d.tracedIdentify source
  match d.description.header with
  | none => pure d
  | some header =>
    if d.settings.isIdentify then pure d
    else return { d with description := ← d.description.tracedCheck d.settings header source }

theorem gives_tracedIdentify (d : Decoder) (source : Source) :
    (d.tracedIdentify source).Gives source (d.identify source)
      (failure? (source.read 0 Header.signatureSize)) [] :=
  (Description.gives_tracedHeader _ source).bind_pure rfl

end Decoder
end ImageAudit.Tiff
