import ImageAudit.Proofs.Recognition
import ImageAudit.Proofs.Tiff.PlainFindings
import ImageAudit.Proofs.Tiff.Verdict
import ImageAudit.Proofs.Traced.Tiff

/-! TIFF files with reads that fail. The first read that fails is the last one, and the finding that
tells of it is the last one as well; the main directories that were complete are kept. -/
namespace ImageAudit.Tiff

def readFailure? : ImageAudit.Finding → Option ReadError
  | .tiff (.readingError cause) => some cause
  | _ => none

theorem readFailure?_of_plain {onStream : Jpeg.Finding → Prop} {f : ImageAudit.Finding}
    (h : PlainWith onStream f) : readFailure? f = none := by
  cases f with
  | tiff f => cases f <;> first | rfl | cases h.no_cause
  | xmp | jpeg => rfl

def Survey.Unfailed (s : Survey) : Prop := EndsIn readFailure? none s.findings.toList

theorem Survey.Plain.unfailed {onStream : Jpeg.Finding → Prop} {s : Survey}
    (h : s.Plain onStream) : s.Unfailed := fun f hf => readFailure?_of_plain (h f hf)

namespace Description

theorem endsIn_report_readingError {d : Description} (h : d.survey.Unfailed) (cause : ReadError) :
    EndsIn readFailure? (some cause) (d.report (.readingError cause)).findings := by
  rw [findings, report, Survey.report, Array.toList_push]
  exact EndsIn.append h (EndsIn.singleton readFailure? (.tiff (.readingError cause)))

theorem unfailed_checkBaseline {d : Description} (h : d.survey.Unfailed) :
    d.checkBaseline.survey.Unfailed := by
  rw [checkBaseline]
  split
  · exact h
  · next first _ =>
    have hplain := (Baseline.plain_check first).map fun _ => True
    change EndsIn readFailure? none (Description.findings _)
    rw [findings_foldl_report]
    exact EndsIn.append h fun f hf => readFailure?_of_plain (hplain f hf)

/-- Where the record of a check ends in a failed read its findings do. The main directories are
those in the record, and the chain was followed to its end unless a read failed. -/
theorem exists_gives_tracedCheck {d : Description} (h : d.survey = .start .default)
    (settings : Settings) (header : Header) (source : Source) :
    ∃ failure trees,
      (d.tracedCheck settings header source).Gives source (d.check settings header source)
        failure trees ∧
      EndsIn readFailure? failure (d.check settings header source).findings ∧
      (d.check settings header source).survey.directories.toList = trees ∧
      (failure = none → ∀ offset, header.firstOffset source = .ok offset →
        ∃ s, Survey.Follows ⟨source, settings, header.encoding⟩ offset (.start .default) trees
          (.ok () s)) := by
  have hempty : d.survey.Plain fun _ => True := by
    rw [h]
    exact List.forall_mem_nil _
  have hno : d.survey.directories.toList = [] := by
    rw [h]
    rfl
  have hfirst := header.gives_tracedFirstOffset source
  rw [tracedCheck, check]
  cases hoffset : header.firstOffset source with
  | error obstacle =>
    rw [hoffset] at hfirst
    cases obstacle with
    | defect finding =>
      have hplain := hempty.report (Header.plain_of_firstOffset hoffset)
      exact ⟨none, [], hfirst.bind_pure rfl, hplain.unfailed, hno, fun _ _ h => by cases h⟩
    | failure cause =>
      exact ⟨some cause, [], hfirst.bind_pure rfl,
        endsIn_report_readingError hempty.unfailed cause, hno, fun hnone => by cases hnone⟩
  | ok offset =>
    rw [hoffset] at hfirst
    obtain ⟨trees, hfollows, hwalk⟩ :=
      d.exists_gives_tracedWalk ⟨source, settings, header.encoding⟩ offset
    have hsurvey := survey_walk ⟨source, settings, header.encoding⟩ offset d
    have hplain := hempty.walk (c := ⟨source, settings, header.encoding⟩)
      (fun _ _ _ _ => trivial) offset
    have htrees := Survey.directories_follows hfollows
    rw [hno, List.nil_append] at htrees
    rw [← hsurvey] at hplain htrees
    dsimp only
    have hend : (d.walk ⟨source, settings, header.encoding⟩ offset).1 = .ok () →
        ∃ s, d.survey.walk ⟨source, settings, header.encoding⟩ offset = .ok () s := walk_ok
    generalize d.walk ⟨source, settings, header.encoding⟩ offset = walked at *
    obtain ⟨cause | _, after⟩ := walked
    · exact ⟨some cause, trees, hfirst.bind (hwalk.bind_pure rfl),
        endsIn_report_readingError hplain.unfailed cause, htrees, fun hnone => by cases hnone⟩
    · obtain ⟨s, hs⟩ := hend rfl
      rw [hs, h] at hfollows
      refine ⟨none, trees, hfirst.bind (hwalk.bind_pure rfl), ?_, ?_, fun _ offset' hsame => ?_⟩
      · dsimp only
        split
        · exact unfailed_checkBaseline hplain.unfailed
        · exact hplain.unfailed
      · dsimp only
        split
        · exact (congrArg Array.toList (checkBaseline_keeps after).2.1).trans htrees
        · exact htrees
      · obtain rfl := Except.ok.inj hsame
        exact ⟨s, hfollows⟩

end Description

namespace Decoder

variable {d : Decoder} {source : Source}

/-- Where the header cannot be read that is all that happens. -/
theorem process_of_unreadable {cause : ReadError}
    (h : source.read 0 Header.signatureSize = .error cause) :
    (d.tracedProcess source).value = d.process source ∧
      (d.tracedProcess source).acts = [.read 0 Header.signatureSize (some cause)] ∧
      (d.process source).isIdentified = false ∧
      (d.process source).description.findings = [.tiff (.cannotReadHeader cause)] := by
  have htraced : d.tracedIdentify source =
      ⟨d.identify source, [.read 0 Header.signatureSize (some cause)]⟩ := by
    simp only [tracedIdentify, Description.tracedHeader, Header.tracedRead, identify,
      Description.readHeader, Header.read, Traced.read, h]
    rfl
  have hidentify : (d.identify source).description =
      d.reset.description.report (.cannotReadHeader cause) := by
    rw [identify, Description.readHeader, Header.read, h]
  have hheader : (d.identify source).description.header = none := by
    rw [hidentify]
    rfl
  have hnot : (d.identify source).isIdentified = false := by
    rw [isIdentified, hheader]
    rfl
  have hdone : d.tracedProcess source =
      ⟨d.identify source, [.read 0 Header.signatureSize (some cause)]⟩ := by
    rw [tracedProcess, htraced]
    dsimp only [bind]
    rw [hheader]
    rfl
  rw [process_of_not_isIdentified hnot, hdone]
  refine ⟨rfl, rfl, hnot, ?_⟩
  rw [hidentify]
  rfl

/-- Where the header can be read the findings end in a failed read exactly when the record does. The
main directories are those in the record, and the chain was followed to its end unless a read
failed. -/
theorem exists_gives_tracedProcess {bytes : ByteArray}
    (h : source.read 0 Header.signatureSize = .ok bytes) :
    ∃ failure trees, (d.tracedProcess source).Gives source (d.process source) failure trees ∧
      EndsIn readFailure? failure (d.process source).description.findings ∧
      (d.process source).description.survey.directories.toList = trees ∧
      (failure = none → d.settings.isIdentify = false → ∀ header offset,
        (d.process source).description.header = some header →
        header.firstOffset source = .ok offset →
        ∃ s, Survey.Follows ⟨source, d.settings, header.encoding⟩ offset (.start .default) trees
          (.ok () s)) := by
  have hidentify := d.gives_tracedIdentify source
  rw [h] at hidentify
  cases hheader : Header.read source with
  | error finding =>
    have hplain : finding.Plain := by
      rw [Header.read, h] at hheader
      exact Header.plain_of_ofBytes hheader
    have hsame : (d.identify source).description = d.reset.description.report finding := by
      rw [identify, Description.readHeader, hheader]
    have hnone : (d.identify source).description.header = none := by
      rw [hsame]
      rfl
    have hnot : (d.identify source).isIdentified = false := by
      rw [isIdentified, hnone]
      rfl
    have hempty : d.reset.description.survey.Plain fun _ => True := List.forall_mem_nil _
    rw [process_of_not_isIdentified hnot, tracedProcess]
    refine ⟨none, [], hidentify.bind_pure (by rw [hnone]), ?_, ?_, ?_⟩
    · rw [hsame]
      exact (hempty.report hplain).unfailed
    · rw [hsame]
      rfl
    · intro _ _ header _ hsome
      cases hnone.symm.trans hsome
  | ok header =>
    have hsame : (d.identify source).description =
        { d.reset.description with header := some header } := by
      rw [identify, Description.readHeader, hheader]
    have hsome : (d.identify source).description.header = some header := by rw [hsame]
    have hstart : (d.identify source).description.survey = .start .default := by
      rw [hsame]
      rfl
    by_cases hmode : d.settings.isIdentify = true
    · rw [process_of_isIdentify hmode, tracedProcess]
      refine ⟨none, [], hidentify.bind_pure ?_, ?_, ?_, ?_⟩
      · rw [hsome]
        exact if_pos hmode
      · rw [Description.findings, hstart]
        exact EndsIn.nil
      · rw [hstart]
        rfl
      · intro _ hnot
        cases hmode.symm.trans hnot
    · obtain ⟨failure, trees, hgives, hfindings, htrees, hend⟩ :=
        Description.exists_gives_tracedCheck hstart d.settings header source
      have hprocess : d.process source = { d with
          description := (d.identify source).description.check d.settings header source } := by
        rw [process, hsome]
        exact if_neg hmode
      rw [hprocess, tracedProcess]
      refine ⟨failure, trees, hidentify.bind ?_, hfindings, htrees, ?_⟩
      · rw [hsome]
        dsimp only
        rw [if_neg (show ¬ (d.identify source).settings.isIdentify = true from hmode)]
        exact hgives.bind_pure rfl
      · intro hnone _ header' offset hheader' hoffset
        rw [Description.header_check, hsome] at hheader'
        obtain rfl := Option.some.inj hheader'
        exact hend hnone offset hoffset

end Decoder
end ImageAudit.Tiff
