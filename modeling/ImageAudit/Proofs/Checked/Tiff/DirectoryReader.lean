import ImageAudit.Proofs.Checked.Tiff.EmbeddedData
import ImageAudit.Proofs.Checked.Tiff.Field
import ImageAudit.Tiff.Visited

/-! Reading one directory with operations that can go wrong. Its two parts lie inside the source, so
the cursor that runs over its entries stays inside what was read. -/
namespace ImageAudit.Tiff

open Checked

structure InputContext where
  input : Input
  settings : Settings
  encoding : Encoding

def InputContext.context (c : InputContext) : Context := ⟨c.input.source, c.settings, c.encoding⟩

namespace Directory

def checkedReadPart (input : Input) (offset start count : Nat) :
    Checked (Except Obstacle ByteArray) :=
  if !input.source.hasSection start count then
    pure (.error (.defect (.invalidFileOffset offset input.source.length)))
  else do
    match ← input.read start count with
    | .error cause => pure (.error (.failure cause))
    | .ok bytes => pure (.ok bytes)

def checkedReadBytes (e : Encoding) (input : Input) (offset : Nat) :
    Checked (Except Obstacle (Nat × Segment)) := do
  match ← checkedReadPart input offset offset (countSize e.big) with
  | .error obstacle => pure (.error obstacle)
  | .ok bytes => do
    let (count, raw) ← Segment.checkedUint ⟨offset, bytes, e.order, 0⟩ (countSize e.big)
    if count < minTags then pure (.error (.defect (.tooFewTags offset count minTags)))
    else do
      let start ← add maxWord offset (countSize e.big)
      match ← checkedReadPart input offset start (bodySize e.big count) with
      | .error obstacle => pure (.error obstacle)
      | .ok body => do
        let raw ← raw.checkedAppend body
        pure (.ok (count, raw))

variable {input : Input} {offset : Nat} {e : Encoding}

theorem checkedReadPart_eq (h : input.Valid) (offset start count : Nat) :
    checkedReadPart input offset start count = pure (readPart input.source offset start count) := by
  unfold checkedReadPart readPart
  split
  · rfl
  · rw [Input.read_eq h, pure_bind]
    cases input.source.read start count <;> rfl

theorem size_of_readPart {source : Source} {start count : Nat} {bytes : ByteArray}
    (h : readPart source offset start count = .ok bytes) : bytes.size = count := by
  unfold readPart at h
  split at h
  · cases h
  · split at h
    · cases h
    · next hread =>
      obtain rfl := Except.ok.inj h
      exact Source.size_read hread

theorem checkedReadBytes_eq (h : input.Valid) (e : Encoding) (offset : Nat) :
    checkedReadBytes e input offset = pure (readBytes e input.source offset) := by
  have hlength := h.length_le
  have hlong : maxLong = 0xFFFFFFFF := rfl
  have hword : maxWord = 0xFFFFFFFFFFFFFFFF := rfl
  rw [checkedReadBytes, checkedReadPart_eq h, pure_bind, readBytes]
  cases hhead : readPart input.source offset offset (countSize e.big) with
  | error obstacle => rfl
  | ok bytes =>
    have hinside := le_of_readPart hhead
    have hsize := size_of_readPart hhead
    have hcursor : Segment.Sound ⟨offset, bytes, e.order, 0⟩ :=
      Segment.sound_of_size (by omega)
    dsimp only
    rw [Segment.checkedUint_eq hcursor, pure_bind]
    split
    · rfl
    · rw [add_eq (by omega), pure_bind, checkedReadPart_eq h, pure_bind]
      cases hbody : readPart input.source offset (offset + countSize e.big)
          (bodySize e.big (Segment.uint ⟨offset, bytes, e.order, 0⟩ (countSize e.big)).1) with
      | error obstacle => rfl
      | ok body =>
        have hbehind := le_of_readPart hbody
        have hmore := size_of_readPart hbody
        dsimp only
        rw [Segment.checkedAppend_eq ?_, pure_bind]
        rw [Segment.data_uint]
        dsimp only
        omega

/-- What was read of a directory fits a segment. -/
theorem sound_of_readBytes {source : Source} {count : Nat} {raw : Segment}
    (hlength : source.length ≤ maxLong) (h : readBytes e source offset = .ok (count, raw)) :
    raw.Sound := by
  have hlong : maxLong = 0xFFFFFFFF := rfl
  have hword : maxWord = 0xFFFFFFFFFFFFFFFF := rfl
  unfold readBytes at h
  split at h
  · cases h
  · next bytes hhead =>
    have hinside := le_of_readPart hhead
    have hsize := size_of_readPart hhead
    dsimp only at h
    split at h
    · cases h
    · split at h
      · cases h
      · next body hbody =>
        have hbehind := le_of_readPart hbody
        have hmore := size_of_readPart hbody
        obtain ⟨_, rfl⟩ := Prod.mk.inj (Except.ok.inj h)
        have hcursor : (Segment.uint ⟨offset, bytes, e.order, 0⟩ (countSize e.big)).2.Sound :=
          (Segment.sound_uint _ _).mpr (by dsimp only; omega)
        refine hcursor.append ?_
        rw [Segment.data_uint]
        dsimp only
        omega

end Directory

namespace Intake

def checkedStep (c : InputContext) (s : Intake) : Checked (Except ReadError Unit × Intake) := do
  let (loaded, cursor) ← Field.checkedRead c.encoding c.input s.cursor s.budget
  let s := { s with cursor, budget := loaded.budget, findings := s.findings ++ loaded.findings }
  match loaded.result with
  | .error cause => pure (.error cause, s)
  | .ok field => pure (.ok (), s.accept field)

def checkedRun (c : InputContext) :
    (count : Nat) → Intake → Checked (Except ReadError Unit × Intake)
  | 0, s => pure (.ok (), s)
  | count + 1, s => do
    match ← s.checkedStep c with
    | (.error cause, s) => pure (.error cause, s)
    | (.ok (), s) => checkedRun c count s

def checkedDirectory (s : Intake) (big : Bool) (offset : Nat) : Checked Directory := do
  let (nextOffset, _) ← s.cursor.checkedOffsetValue big
  pure ⟨offset, s.fields.toList, nextOffset⟩

structure Sound (s : Intake) : Prop where
  cursor : s.cursor.Sound
  raw_le : ∀ f ∈ s.fields, f.raw.size ≤ maxWord

variable {c : InputContext} {s : Intake}

theorem sound_start {cursor : Segment} (h : cursor.Sound) (budget : Budget) :
    (start cursor budget).Sound :=
  ⟨h, fun f hmem => by cases Array.not_mem_empty f hmem⟩

theorem checkedStep_eq (h : c.input.Valid) (hs : s.Sound) :
    s.checkedStep c = pure (s.step c.context) := by
  simp only [checkedStep, step, InputContext.context, Field.checkedRead_eq h hs.cursor, pure_bind]
  generalize Field.read c.encoding c.input.source s.cursor s.budget = reading
  cases reading.1.result <;> rfl

/-- A step keeps what the next one relies on. -/
theorem Sound.step (h : c.input.Valid) (hs : s.Sound) : (s.step c.context).2.Sound := by
  have hcursor : (Field.read c.encoding c.input.source s.cursor s.budget).2.Sound :=
    Field.sound_read _ _ hs.cursor _
  simp only [Intake.step, InputContext.context]
  split
  · exact ⟨hcursor, hs.raw_le⟩
  · next f hread =>
    refine ⟨hcursor, fun g hmem => ?_⟩
    rcases Array.mem_push.mp hmem with hmem | rfl
    · exact hs.raw_le g hmem
    · exact Field.raw_le_of_read h hs.cursor hread

theorem checkedRun_eq (h : c.input.Valid) (hs : s.Sound) (count : Nat) :
    s.checkedRun c count = pure (s.run c.context count) := by
  induction count generalizing s with
  | zero => rfl
  | succ count ih =>
    have hnext := hs.step h
    rw [checkedRun, checkedStep_eq h hs, pure_bind, run]
    rcases hstep : s.step c.context with ⟨result, t⟩
    rw [hstep] at hnext
    cases result with
    | error cause => rfl
    | ok => exact ih hnext

/-- A run keeps what the rules rely on. -/
theorem Sound.run (h : c.input.Valid) (hs : s.Sound) (count : Nat) :
    (s.run c.context count).2.Sound := by
  induction count generalizing s with
  | zero => exact hs
  | succ count ih =>
    have hnext := hs.step h
    rw [Intake.run]
    rcases hstep : s.step c.context with ⟨result, t⟩
    rw [hstep] at hnext
    cases result with
    | error cause => exact hnext
    | ok => exact ih hnext

theorem checkedDirectory_eq (hs : s.Sound) (big : Bool) (offset : Nat) :
    s.checkedDirectory big offset = pure (s.directory big offset) := by
  rw [checkedDirectory, Segment.checkedOffsetValue_eq hs.cursor, pure_bind]
  rfl

end Intake

namespace Directory

def checkedRulesFindings (narrow : Nat → Checked Nat) (c : InputContext) (kind : DirectoryKind)
    (index : Nat) (d : Directory) : Checked (List ImageAudit.Finding) := do
  let rules ← DirectoryRules.checkedCheck d kind index c.input.source.length
  let embedded ← EmbeddedData.checkedCheck narrow c.settings c.input d
  pure (rules.map .tiff ++ embedded)

def checkedRead (narrow : Nat → Checked Nat) (c : InputContext) (kind : DirectoryKind)
    (index offset : Nat) (budget : Budget) : Checked DirectoryReading := do
  let parity := parityFindings offset
  match ← checkedReadBytes c.encoding c.input offset with
  | .error (.defect finding) => pure ⟨.ok none, (parity ++ [finding]).map .tiff, budget⟩
  | .error (.failure cause) => pure ⟨.error cause, parity.map .tiff, budget⟩
  | .ok (count, raw) => do
    let (result, s) ← (Intake.start raw budget).checkedRun c count
    let findings := (parity ++ s.findings.toList).map ImageAudit.Finding.tiff
    match result with
    | .error cause => pure ⟨.error cause, findings, s.budget⟩
    | .ok () => do
      let d ← s.checkedDirectory c.encoding.big offset
      let rules ← checkedRulesFindings narrow c kind index d
      pure ⟨.ok (some d), findings ++ rules, s.budget⟩

variable {c : InputContext}

theorem checkedRulesFindings_eq (h : c.input.Valid) {d : Directory}
    (hraw : ∀ f ∈ d.fields, f.raw.size ≤ maxWord) (kind : DirectoryKind) (index : Nat) :
    checkedRulesFindings (cut maxHalf) c kind index d =
      pure (rulesFindings c.context kind index d) := by
  rw [checkedRulesFindings, DirectoryRules.checkedCheck_eq, pure_bind,
    EmbeddedData.checkedCheck_eq h hraw, pure_bind]
  rfl

/-- Reading a directory does not go wrong, wherever it is said to be. -/
theorem checkedRead_eq (h : c.input.Valid) (kind : DirectoryKind) (index offset : Nat)
    (budget : Budget) :
    checkedRead (cut maxHalf) c kind index offset budget =
      pure (read c.context kind index offset budget) := by
  rw [checkedRead, checkedReadBytes_eq h, pure_bind]
  unfold read
  cases hbytes : readBytes c.encoding c.input.source offset with
  | error obstacle => cases obstacle <;> simp only [InputContext.context, hbytes]
  | ok found =>
    obtain ⟨count, raw⟩ := found
    have hstart := Intake.sound_start (sound_of_readBytes h.length_le hbytes) budget
    have hread := hstart.run h count
    have hcontext : readBytes c.context.encoding c.context.source offset = .ok (count, raw) := hbytes
    simp only [hcontext, Intake.checkedRun_eq h hstart, pure_bind]
    rcases hrun : (Intake.start raw budget).run c.context count with ⟨result, s⟩
    rw [hrun] at hread
    cases result with
    | error cause => rfl
    | ok =>
      have hraw : ∀ f ∈ (s.directory c.encoding.big offset).fields, f.raw.size ≤ maxWord :=
        fun f hmem => hread.raw_le f (Array.mem_toList_iff.mp hmem)
      dsimp only
      rw [Intake.checkedDirectory_eq hread, pure_bind, checkedRulesFindings_eq h hraw, pure_bind]
      rfl

end Directory
end ImageAudit.Tiff
