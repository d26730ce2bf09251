import ImageAudit.Proofs.Tiff.EmbeddedStream
import ImageAudit.Proofs.Tiff.FailedRead
import ImageAudit.Proofs.Traced.Jpeg

/-! Reads that fail, in both formats. The log of a decoder tells of a failed read exactly when one
of its own reads failed, and ends with it. -/
namespace ImageAudit

open Tiff

namespace Finding

theorem tiff_readingError_iff (f : Finding) :
    f.event.key = "tiff.error.reading_error" ↔ (readFailure? f).isSome = true := by
  cases f with
  | tiff f => cases f <;> simp [event, key, Tiff.Finding.key, readFailure?]
  | xmp f => cases f <;> simp [event, key, Xmp.Finding.key, readFailure?]
  | jpeg f => cases f <;> simp [event, key, Jpeg.Finding.key, readFailure?]

theorem jpeg_readingError_iff (f : Jpeg.Finding) :
    (jpeg f).event.key = "jpeg.error.reading_error" ↔ f.failure?.isSome = true := by
  cases f <;> simp [event, key, Jpeg.Finding.key, Jpeg.Finding.failure?]

end Finding

/-- Whether a log tells of a failed read that the record of the same run ends in. -/
theorem EndsIn.contains_iff {π φ : Type} {failed? : φ → Option ReadError} {event : φ → Event}
    {key : String} (hkey : ∀ f, (event f).key = key ↔ (failed? f).isSome = true)
    {failure : Option ReadError} {acts : List (Act π)} {found : List φ}
    (hacts : EndsIn Act.failure? failure acts) (hfound : EndsIn failed? failure found) :
    (Log.contains (found.map event) key = true ↔
      ∃ act ∈ acts, act.failure?.isSome = true) := by
  rw [← hacts.isSome_iff, hfound.isSome_iff]
  simp [Log.contains, hkey]

/-- A decoder that cannot read the bytes it tells a file by finds that and nothing else. Otherwise
its log tells of a failed read exactly when one of its own reads failed. That read is its last one
and the event the last one of the log; the main directories, or markers, are those that were
complete before. Reads of a stream inside a TIFF file are not among them: what its decoder finds
stands in the log, and unless an own read fails the chain is followed to its end. -/
theorem failed_read_ends_process :
    (∀ (d : Tiff.Decoder) (source : Source),
      let traced := d.tracedProcess source
      let after := (d.process source).description
      traced.value = d.process source ∧
      (∀ cause, source.read 0 Header.signatureSize = .error cause →
        traced.acts = [.read 0 Header.signatureSize (some cause)] ∧
        (d.process source).isIdentified = false ∧
        after.findings = [.tiff (.cannotReadHeader cause)]) ∧
      ∀ bytes, source.read 0 Header.signatureSize = .ok bytes →
        ((d.process source).verdict.log.contains "tiff.error.reading_error" = true ↔
          ∃ act ∈ traced.acts, act.failure?.isSome = true) ∧
        (∀ act ∈ traced.acts, act.IsOf source) ∧
        ∃ failure, EndsIn Act.failure? failure traced.acts ∧
          EndsIn Tiff.readFailure? failure after.findings ∧
          after.survey.directories.toList = traced.acts.filterMap Act.part? ∧
          (failure = none → d.settings.isIdentify = false → ∀ header offset,
            after.header = some header → header.firstOffset source = .ok offset →
            ∃ s, Survey.Follows ⟨source, d.settings, header.encoding⟩ offset (.start .default)
              after.survey.directories.toList (.ok () s))) ∧
    (∀ (c : Context) (kind : DirectoryKind) (index offset start length : Nat) (s t : Survey)
        (directory : Directory),
      s.enter c kind index offset = .ok (some directory) t →
      directory.RefersTo c.source start length →
      let decoder := (Jpeg.Decoder.new c.settings true).process (c.source.window start length)
      ∃ own, own.filterMap Finding.jpeg? = [] ∧
        t.findings.toList = s.findings.toList ++ own ++ decoder.stream.findings.map .jpeg) ∧
    ∀ (d : Jpeg.Decoder) (source : Source),
      let traced := d.tracedProcess source
      let after := (d.process source).stream
      traced.value = d.process source ∧
      (∀ cause, source.read 0 Jpeg.markerSize = .error cause →
        traced.acts = [.read 0 Jpeg.markerSize (some cause)] ∧
        after.identified = false ∧ after.findings = [.cannotReadHeader cause]) ∧
      ∀ bytes, source.read 0 Jpeg.markerSize = .ok bytes →
        ((d.process source).verdict.log.contains "jpeg.error.reading_error" = true ↔
          ∃ act ∈ traced.acts, act.failure?.isSome = true) ∧
        (∀ act ∈ traced.acts, act.IsOf source) ∧
        ∃ failure, EndsIn Act.failure? failure traced.acts ∧
          EndsIn Jpeg.Finding.failure? failure after.findings ∧
          after.markers.toList = traced.acts.filterMap Act.part? := by
  refine ⟨?_, ?_, ?_⟩
  · intro d source traced after
    cases hread : source.read 0 Header.signatureSize with
    | error cause =>
      obtain ⟨hvalue, hacts, hnot, hfindings⟩ := Tiff.Decoder.process_of_unreadable (d := d) hread
      refine ⟨hvalue, fun cause' hsame => ?_, fun _ h => nomatch h⟩
      obtain rfl := Except.error.inj hsame
      exact ⟨hacts, hnot, hfindings⟩
    | ok bytes =>
      obtain ⟨failure, trees, hgives, hfindings, htrees, hend⟩ :=
        Tiff.Decoder.exists_gives_tracedProcess (d := d) hread
      refine ⟨hgives.value_eq, fun _ h => (nomatch h), fun _ _ => ⟨?_, hgives.isOf, failure,
        hgives.fails, hfindings, htrees.trans hgives.parts_eq.symm, ?_⟩⟩
      · exact EndsIn.contains_iff Finding.tiff_readingError_iff hgives.fails hfindings
      · rw [htrees]
        exact hend
  · intro c kind index offset start length s t directory henter href decoder
    obtain ⟨own, hown, hfindings⟩ := Survey.findings_enter henter
    refine ⟨own, hown, hfindings.trans ?_⟩
    rw [EmbeddedData.streamFindings, href.offset_eq, href.length_eq]
    dsimp only
    rw [if_pos href.inside]
  · intro d source traced after
    cases hread : source.read 0 Jpeg.markerSize with
    | error cause =>
      obtain ⟨hvalue, hacts, hnot, hfindings⟩ := Jpeg.Decoder.process_of_unreadable (d := d) hread
      refine ⟨hvalue, fun cause' hsame => ?_, fun _ h => nomatch h⟩
      obtain rfl := Except.error.inj hsame
      exact ⟨hacts, hnot, hfindings⟩
    | ok bytes =>
      obtain ⟨failure, markers, hgives, hfindings, hmarkers⟩ :=
        Jpeg.Decoder.exists_gives_tracedProcess (d := d) hread
      refine ⟨hgives.value_eq, fun _ h => (nomatch h), fun _ _ => ⟨?_, hgives.isOf, failure,
        hgives.fails, hfindings, hmarkers.trans hgives.parts_eq.symm⟩⟩
      exact EndsIn.contains_iff Finding.jpeg_readingError_iff hgives.fails hfindings

/-- A file that claims more bytes than it has. Its chain leads behind one directory, which has the
tag of a digital negative, to where no bytes are. -/
def Source.cutOff : Source :=
  (Source.ofBytes "" ⟨#[
    0x49, 0x49, 42, 0, 8, 0, 0, 0, 1, 0,
    0x12, 0xC6, 1, 0, 4, 0, 0, 0, 1, 4, 0, 0,
    40, 0, 0, 0]⟩).window 0 100

theorem failed_read_ends_process_cutOff :
    let traced := (Tiff.Decoder.new {}).tracedProcess .cutOff
    (∃ act ∈ traced.acts, act.failure?.isSome = true) ∧
      (traced.acts.filterMap Act.part?).length = 1 ∧
      ∃ failure, EndsIn Act.failure? failure traced.acts :=
  have hread : Source.cutOff.read 0 Header.signatureSize = .ok ⟨#[0x49, 0x49, 42, 0]⟩ := by
    decide +kernel
  have htold : ((Tiff.Decoder.new {}).process .cutOff).verdict.log.contains
      "tiff.error.reading_error" = true := by decide +kernel
  have hone : ((Tiff.Decoder.new {}).process .cutOff).description.survey.directories.toList.length =
      1 := by decide +kernel
  have ⟨htells, _, failure, hfails, _, hparts, _⟩ :=
    (failed_read_ends_process.1 (.new {}) .cutOff).2.2 _ hread
  ⟨htells.mp htold, (congrArg List.length hparts).symm.trans hone, failure, hfails⟩

end ImageAudit
