import ImageAudit.Jpeg.Stream

/-! What is found in payloads and in scan data. It is told by numbers alone: it names no marker, and
it never is a read that failed. -/
namespace ImageAudit.Jpeg

/-- Whether a finding tells neither of a failed read nor of the name of a marker. -/
def Finding.isNumeric : Finding → Bool
  | .cannotReadHeader _ | .readingError _ | .invalidMarker .. | .invalidMarkerLength ..
  | .firstMarkerNotStart _ => false
  | _ => true

def Numeric (findings : List Finding) : Prop := ∀ f ∈ findings, f.isNumeric = true

@[simp] theorem numeric_nil : Numeric [] := List.forall_mem_nil _

@[simp] theorem numeric_cons {f : Finding} {findings : List Finding} :
    Numeric (f :: findings) ↔ f.isNumeric = true ∧ Numeric findings := List.forall_mem_cons

@[simp] theorem numeric_append {first second : List Finding} :
    Numeric (first ++ second) ↔ Numeric first ∧ Numeric second := List.forall_mem_append

/-- A finding that is reported under a condition, in either branch. -/
@[simp] theorem numeric_ite {p : Prop} [Decidable p] {first second : List Finding} :
    Numeric (if p then first else second) ↔ (p → Numeric first) ∧ (¬ p → Numeric second) := by
  split <;> simp_all

namespace Frame

theorem numeric_componentFindings (f : Frame) (c : FrameComponent) :
    Numeric (f.componentFindings c) := by
  simp [componentFindings, Finding.isNumeric]

theorem numeric_readComponents (count : Nat) (f : Frame) (cursor : Segment) :
    Numeric (readComponents count f cursor).2.2 := by
  induction count generalizing f cursor with
  | zero => exact numeric_nil
  | succ count ih => exact numeric_append.mpr ⟨f.numeric_componentFindings _, ih _ _⟩

theorem numeric_headerFindings (f : Frame) (count : Nat) : Numeric (f.headerFindings count) := by
  obtain ⟨marker, frameClass, precision, height, width, components, scans⟩ := f
  cases frameClass <;> simp [headerFindings, FrameClass.precisionFinding, Finding.isNumeric]

theorem numeric_ofPayload (m : Marker) (frameClass : FrameClass) :
    Numeric (ofPayload m frameClass).2.2 := by
  simp only [ofPayload]
  generalize ((((m.segment.uint 1).2.uint 2).2.uint 2).2.uint 1) = last
  generalize (((m.segment.uint 1).2.uint 2).2.uint 2).1 = width
  generalize ((m.segment.uint 1).2.uint 2).1 = height
  generalize (m.segment.uint 1).1 = precision
  split
  · exact numeric_append.mpr ⟨numeric_headerFindings _ _, numeric_cons.mpr ⟨rfl, numeric_nil⟩⟩
  · exact numeric_append.mpr ⟨numeric_headerFindings _ _, numeric_readComponents _ _ _⟩

theorem numeric_read (m : Marker) (existing : Option Frame) : Numeric (read m existing).2.2 := by
  rw [read]
  dsimp only
  split
  · exact numeric_ofPayload m _
  · simp [Finding.isNumeric]

end Frame

namespace Scan

theorem numeric_componentFindings (f : Frame) (seen : List Nat) (components : List ScanComponent) :
    Numeric (componentFindings f seen components) := by
  induction components generalizing seen with
  | nil => exact numeric_nil
  | cons c rest ih => simp [componentFindings, Finding.isNumeric, ih]

theorem numeric_read (m : Marker) (f : Frame) : Numeric (read m f).2.2 := by
  simp only [read]
  split
  · simp [Finding.isNumeric]
  split
  · simp [Finding.isNumeric]
  · simp [numeric_componentFindings, parameterFindings, Finding.isNumeric]

end Scan

namespace Huffman

theorem numeric_readDefinition {limits : Limits} {cursor : Segment} {findings : List Finding}
    (h : (readDefinition limits cursor).1 = .error findings) : Numeric findings := by
  simp only [readDefinition] at h
  split at h
  · rw [← Except.error.inj h]
    simp [limitFindings, Finding.isNumeric]
  split at h
  · rw [← Except.error.inj h]
    simp [Finding.isNumeric]
  split at h
  · rw [← Except.error.inj h]
    simp [Finding.isNumeric]
  split at h
  · cases h
  · next e _ =>
    rw [← Except.error.inj h]
    cases e <;> simp [BuildError.finding, Finding.isNumeric]

theorem numeric_readTables (limits : Limits) (cursor : Segment) (tables : Tables) :
    Numeric (readTables limits cursor tables).2.2 := by
  fun_induction readTables limits cursor tables with
  | case1 => exact numeric_nil
  | case2 _ _ _ _ _ h => exact numeric_readDefinition h
  | case3 _ _ _ _ _ _ ih => exact ih

end Huffman

namespace Quantization

theorem numeric_readDefinition {cursor : Segment} {findings : List Finding}
    (h : (readDefinition cursor).1 = .error findings) : Numeric findings := by
  have hdestination (id : Nat) : Numeric (destinationFindings id) := by
    simp [destinationFindings, Finding.isNumeric]
  simp only [readDefinition] at h
  split at h
  · rw [← Except.error.inj h]
    exact numeric_append.mpr ⟨hdestination _, by simp [Finding.isNumeric]⟩
  · split at h
    · rw [← Except.error.inj h]
      exact hdestination _
    split at h
    · rw [← Except.error.inj h]
      simp [Finding.isNumeric]
    · cases h

theorem numeric_readTables (cursor : Segment) (tables : Slots Table) :
    Numeric (readTables cursor tables).2.2 := by
  fun_induction readTables cursor tables with
  | case1 => exact numeric_nil
  | case2 _ _ _ _ _ h => exact numeric_readDefinition h
  | case3 _ _ _ _ _ _ ih => exact ih

end Quantization

namespace ScanData

theorem numeric_coding {tables : Huffman.Tables} {c : ScanComponent} {findings : List Finding}
    (h : coding tables c = .error findings) : Numeric findings := by
  rw [coding] at h
  split at h
  · cases h
  · rw [← Except.error.inj h]
    simp [Finding.isNumeric]

theorem numeric_missingTables (tables : Huffman.Tables) (components : List ScanComponent) :
    Numeric (missingTables tables components) := by
  intro f hf
  obtain ⟨c, _, hc⟩ := List.mem_flatMap.mp hf
  split at hc
  · cases hc
  · next h => exact numeric_coding h f hc

namespace Plan

variable {p : Plan} {s : Progress} {f : Finding}

theorem isNumeric_sync (h : p.sync s = .error f) : f.isNumeric = true := by
  rw [sync] at h
  split at h
  · split at h
    · cases h
    · next e _ _ =>
      rw [← Except.error.inj h]
      cases e <;> rfl
  · cases h

theorem isNumeric_step (h : p.step s = .error f) : f.isNumeric = true := by
  rw [step] at h
  split at h
  · next hs =>
    rw [← Except.error.inj h]
    exact isNumeric_sync hs
  · split at h
    · cases h
    · next e _ _ =>
      rw [← Except.error.inj h]
      rcases e with (_ | _) | _ <;> rfl

theorem isNumeric_run {count : Nat} (h : p.run count s = .error f) : f.isNumeric = true := by
  induction count generalizing s with
  | zero => cases h
  | succ count ih =>
    rw [run] at h
    split at h
    · next hs =>
      rw [← Except.error.inj h]
      exact isNumeric_step hs
    · exact ih h

end Plan

theorem numeric_check (f : Frame) (tables : Huffman.Tables) (interval : Nat) (data : ByteArray)
    (offset number : Nat) : Numeric (check f tables interval data offset number) := by
  simp only [check]
  split
  · exact numeric_nil
  split
  · exact numeric_missingTables _ _
  split
  · exact numeric_nil
  split
  · exact numeric_nil
  · next h => exact numeric_cons.mpr ⟨Plan.isNumeric_run h, numeric_nil⟩

end ScanData

namespace Stream

/-- What a payload adds to the findings holds numbers only. -/
theorem exists_findings_take (s : Stream) (m : Marker) :
    ∃ more, (s.take m).1.findings = s.findings ++ more ∧ Numeric more := by
  unfold take
  split
  · exact ⟨_, rfl, Frame.numeric_read m s.frame⟩
  split
  · simp only [takeScan]
    split
    · exact ⟨_, rfl, by simp [Finding.isNumeric]⟩
    · next f _ =>
      have hscan := Scan.numeric_read m f
      generalize Scan.read m f = read at hscan ⊢
      exact ⟨_, rfl, hscan⟩
  split
  · exact ⟨_, rfl, Huffman.numeric_readTables _ _ _⟩
  split
  · exact ⟨_, rfl, Quantization.numeric_readTables _ _⟩
  split
  · simp only [takeRestartInterval]
    split
    · exact ⟨_, rfl, by simp [Finding.isNumeric]⟩
    · exact ⟨[], (List.append_nil _).symm, numeric_nil⟩
  · exact ⟨[], (List.append_nil _).symm, numeric_nil⟩

/-- What the data of a scan adds to the findings holds numbers only. -/
theorem exists_findings_checkScanData (s : Stream) (data : ByteArray) (offset : Nat) :
    ∃ more, (s.checkScanData data offset).findings = s.findings ++ more ∧ Numeric more := by
  unfold checkScanData
  split
  · split
    · exact ⟨_, rfl, ScanData.numeric_check _ _ _ _ _ _⟩
    · exact ⟨[], (List.append_nil _).symm, numeric_nil⟩
  · exact ⟨[], (List.append_nil _).symm, numeric_nil⟩

end Stream
end ImageAudit.Jpeg
