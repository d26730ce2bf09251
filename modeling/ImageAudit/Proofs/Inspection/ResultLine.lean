import ImageAudit.Inspection.Decoders
import ImageAudit.Proofs.Inspection.TidyFindings

/-! The line of a report. Its fields are set apart by tabs, and it is one line, as long as no
message quotes a separator from the file. -/
namespace ImageAudit

/-- The summary of a log holds the messages of its problems, and no separator besides. -/
theorem Log.tidy_summary_iff (log : Log) :
    Text.Tidy log.summary ↔ ∀ e ∈ log.problems, Text.Tidy e.message := by
  rw [← List.forall_mem_map (f := Event.message) (P := Text.Tidy), summary]
  generalize log.problems.map (·.message) = messages
  split
  · exact iff_of_true (by decide) (List.forall_mem_nil _)
  · exact List.forall_mem_singleton.symm
  · have hopen : Text.Tidy "(" := by decide
    have hclose : Text.Tidy ") " := by decide
    rw [Text.tidy_intercalate (by decide), List.forall_mem_map]
    simp only [Text.tidy_append, hopen, hclose, Text.tidy_nat, true_and]
    rw [← List.forall_mem_map (f := Prod.fst), List.zipIdx_map_fst]

namespace Finding

/-- What is good news quotes nothing. -/
theorem quoted_of_not_isProblem {f : Finding} (h : f.severity.isProblem = false) :
    f.quoted = "" := by
  cases f with
  | tiff f => cases f <;> first | rfl | cases h
  | xmp | jpeg => rfl

/-- The summary of what was found is as tidy as what is quoted in it. -/
theorem tidy_summary_iff {found : List Finding} (h : ∀ f ∈ found, f.TellsTidily) :
    Text.Tidy (Log.summary (found.map event)) ↔ ∀ f ∈ found, Text.Tidy f.quoted := by
  rw [Log.tidy_summary_iff, Log.problems]
  simp only [List.mem_filter, List.mem_map, and_imp, forall_exists_index,
    forall_apply_eq_imp_iff₂]
  refine forall₂_congr fun f hf => ?_
  cases hproblem : f.severity.isProblem with
  | true => exact ⟨fun hmessage => (h f hf).mp (hmessage hproblem), fun hq _ => (h f hf).mpr hq⟩
  | false =>
    rw [quoted_of_not_isProblem hproblem]
    exact iff_of_true (fun hsome => nomatch hproblem.symm.trans hsome) (by decide)

end Finding

namespace Report

/-- The line of a report is one line, with a tab behind each field but the last one. A file that was
not recognised has two fields and an empty one. -/
structure WellShaped (r : Report) : Prop where
  no_return : '\r' ∉ r.line.toList
  no_newline : '\n' ∉ r.line.toList
  tabs : r.line.toList.count '\t' = if r.format.isSome then 3 else 2

variable {path format : String} {log : Log}

theorem tidy_message (log : Log) : Text.Tidy (identified path format log).message := by
  rw [identified]
  cases log.status with
  | ok => exact Catalog.tidy_text (Text.tidy_literal rfl) (List.forall_mem_nil _)
  | warn => exact Catalog.tidy_text (Text.tidy_literal rfl) (List.forall_mem_nil _)
  | error => exact Catalog.tidy_text (Text.tidy_literal rfl) (List.forall_mem_nil _)
  | unknown => exact (by decide : Text.Tidy "")

theorem wellShaped_unidentified (hpath : Text.Tidy path) : (unidentified path).WellShaped := by
  obtain ⟨htab, hreturn, hnewline⟩ := Text.tidy_iff.mp hpath
  refine ⟨?_, ?_, ?_⟩ <;> simp [unidentified, line, List.count_eq_zero, *]

/-- The line of a recognised file is well-shaped as far as its summary is tidy. -/
theorem wellShaped_identified_iff (hpath : Text.Tidy path) (hformat : Text.Tidy format) :
    (identified path format log).WellShaped ↔ Text.Tidy log.summary := by
  have hmessage : Text.Tidy (identified path format log).message := tidy_message log
  have hline : (identified path format log).line =
      path ++ "\t" ++ format ++ "\t" ++ (identified path format log).message ++ "\t" ++
        log.summary := rfl
  have hsome : (identified path format log).format.isSome = true := rfl
  rw [Text.tidy_iff] at hpath hformat hmessage
  generalize (identified path format log).message = message at hmessage hline
  -- The tabs in front of the fields make three, so that none is left for the summary.
  have htabs : (identified path format log).line.toList.count '\t' =
      3 + log.summary.toList.count '\t' := by
    simp only [hline, String.toList_append, List.count_append, List.count_eq_zero.mpr hpath.1,
      List.count_eq_zero.mpr hformat.1, List.count_eq_zero.mpr hmessage.1]
    simp
  refine ⟨fun ⟨hreturn, hnewline, hcount⟩ => ?_, fun h => ?_⟩
  · rw [htabs, hsome, if_pos rfl] at hcount
    rw [hline] at hreturn hnewline
    simp only [String.toList_append, List.mem_append, not_or] at hreturn hnewline
    exact Text.tidy_iff.mpr ⟨List.count_eq_zero.mp (by omega), hreturn.2, hnewline.2⟩
  · rw [Text.tidy_iff] at h
    refine ⟨?_, ?_, ?_⟩
    · simp [hline, hpath.2.1, hformat.2.1, hmessage.2.1, h.2.1]
    · simp [hline, hpath.2.2, hformat.2.2, hmessage.2.2, h.2.2]
    · rw [htabs, hsome, if_pos rfl, List.count_eq_zero.mpr h.1]

end Report

theorem Tiff.Decoder.tidy_shortName (d : Tiff.Decoder) : Text.Tidy d.shortName := by
  rw [shortName]
  split
  · decide
  split
  · decide
  · decide

theorem Tiff.Header.quoted_of_read {source : Source} {finding : Tiff.Finding}
    (h : read source = .error finding) : finding.quoted = "" := by
  rw [read] at h
  split at h
  · obtain rfl := Except.error.inj h
    rfl
  · unfold ofBytes at h
    split at h
    · obtain rfl := Except.error.inj h
      rfl
    · dsimp only at h
      split at h
      · cases h
      · obtain rfl := Except.error.inj h
        rfl

/-- What keeps a file from being recognised quotes nothing. -/
theorem Tiff.Decoder.quoted_of_not_isIdentified {d : Tiff.Decoder} {source : Source}
    (h : (d.process source).isIdentified = false) :
    ∀ f ∈ (d.process source).description.findings, f.quoted = "" := by
  rw [isIdentified_process] at h
  rw [process_of_not_isIdentified h]
  rw [isIdentified, identify, Description.readHeader] at h
  rw [identify, Description.readHeader]
  cases hheader : Header.read source with
  | error finding => exact List.forall_mem_singleton.mpr (Header.quoted_of_read hheader)
  | ok header =>
    rw [hheader] at h
    cases h

theorem Jpeg.Decoder.tidy_summary {d : Jpeg.Decoder} (h : d.stream.Tidy) :
    Text.Tidy d.verdict.log.summary := by
  have hlog : d.verdict.log = (d.stream.findings.map Finding.jpeg).map Finding.event := by
    rw [verdict, List.map_map]
    rfl
  rw [hlog, Finding.tidy_summary_iff (List.forall_mem_map.mpr fun f hf =>
    Finding.tellsTidily_jpeg (h f hf))]
  exact List.forall_mem_map.mpr fun f _ => (by decide : Text.Tidy "")

/-- The line of a file of the TIFF family is well-shaped as far as what is quoted in it is tidy. -/
theorem Tiff.Decoder.wellShaped_iff (d : Tiff.Decoder) {source : Source}
    (hname : Text.Tidy source.name) (hsource : source.FailsTidily) :
    (Report.identified source.name (d.process source).shortName
        (d.process source).verdict.log).WellShaped ↔
      ∀ f ∈ (d.process source).description.findings, Text.Tidy f.quoted :=
  (Report.wellShaped_identified_iff hname (tidy_shortName _)).trans
    (Finding.tidy_summary_iff (tellsTidily_process d hsource))

theorem Decoders.report_of_isIdentified {d : Decoders} {source : Source}
    (h : (d.tiff.process source).isIdentified = true) :
    (d.inspect source).1 = .identified source.name (d.tiff.process source).shortName
      (d.tiff.process source).verdict.log :=
  congrArg Prod.fst (if_pos h)

/-- The report on a file in memory is one line of tab-separated fields exactly when the dates that
it quotes, because they are none, hold no tab, carriage return or line feed. -/
theorem line_wellShaped_iff (settings : Settings) (name : String) (data : ByteArray)
    (hname : Text.Tidy name) :
    let inspected := (Decoders.new settings).inspect (.ofBytes name data)
    inspected.1.WellShaped ↔
      ∀ f ∈ inspected.2.tiff.description.findings, Text.Tidy f.quoted := by
  have hsource := Source.failsTidily_ofBytes name data
  have hjpeg := Jpeg.Decoder.tidy_process (.new settings false) hsource
  dsimp only [Decoders.inspect, Decoders.new]
  split
  · exact Tiff.Decoder.wellShaped_iff _ hname hsource
  · next hnot =>
    rw [Bool.not_eq_true] at hnot
    have hquoted := Tiff.Decoder.quoted_of_not_isIdentified hnot
    refine iff_of_true ?_ fun f hf => hquoted f hf ▸ (by decide : Text.Tidy "")
    split
    · exact (Report.wellShaped_identified_iff hname (by decide)).mpr
        (Jpeg.Decoder.tidy_summary hjpeg)
    · exact Report.wellShaped_unidentified hname

/-- A file whose one directory has a date with a line feed between the day and the time. -/
def brokenDate : ByteArray := ⟨#[
  0x49, 0x49, 42, 0, 8, 0, 0, 0, 1, 0,
  0x32, 0x01, 2, 0, 20, 0, 0, 0, 26, 0, 0, 0,
  0, 0, 0, 0,
  0x32, 0x30, 0x32, 0x30, 0x3A, 0x30, 0x31, 0x3A, 0x30, 0x31, 0x0A,
  0x30, 0x30, 0x3A, 0x30, 0x30, 0x3A, 0x30, 0x30, 0]⟩

theorem line_wellShaped_iff_brokenDate :
    Text.Tidy "input" ∧
      (((Decoders.new {}).inspect (.ofBytes "input" brokenDate)).1.WellShaped ↔
        ∀ f ∈ ((Decoders.new {}).inspect (.ofBytes "input" brokenDate)).2.tiff.description.findings,
          Text.Tidy f.quoted) :=
  ⟨by decide, line_wellShaped_iff {} "input" brokenDate (by decide)⟩

theorem not_wellShaped_brokenDate :
    Text.Tidy "input" ∧
      ¬ ((Decoders.new {}).inspect (.ofBytes "input" brokenDate)).1.WellShaped := by
  have hname : Text.Tidy "input" := by decide
  have hidentified :
      ((Tiff.Decoder.new {}).process (.ofBytes "input" brokenDate)).isIdentified = true := by
    decide +kernel
  have hquoted : ¬ ∀ f ∈ ((Tiff.Decoder.new {}).process
      (.ofBytes "input" brokenDate)).description.findings, Text.Tidy f.quoted := by
    decide +kernel
  refine ⟨hname, fun h => hquoted ?_⟩
  rw [Decoders.report_of_isIdentified hidentified] at h
  exact (Tiff.Decoder.wellShaped_iff _ hname (Source.failsTidily_ofBytes _ _)).mp h

end ImageAudit
