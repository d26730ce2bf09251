import ImageAudit.Proofs.Inspection.ReadFailures

/-! The flavour of a file. It is told from the main directories when the chain has come to its end.
A read that fails on the way ends the walk before, and then the file is of no flavour whatever the
directories that were complete hold. -/
namespace ImageAudit.Tiff

namespace Description

def LooksDng (d : Description) : Prop :=
  ∃ first, d.mainDirectories.head? = some first ∧ first.contains Tag.dngVersion = true

/-- There are four main directories, and the last one has the tag of slices in a Canon raw file. -/
def LooksCr2 (d : Description) : Prop :=
  d.mainDirectories.length = cr2Directories ∧
    ∃ last, d.mainDirectories.getLast? = some last ∧ last.contains Tag.cr2Slices = true

def HasFailedRead (d : Description) : Prop := ∃ cause, .tiff (.readingError cause) ∈ d.findings

structure FlavourShown (d : Description) : Prop where
  dng : d.isDng = true ↔ d.LooksDng
  cr2 : d.isCr2 = true ↔ d.LooksCr2

structure Flavourless (d : Description) : Prop where
  dng : d.isDng = false
  cr2 : d.isCr2 = false

theorem flavourShown_setFlavour (d : Description) : d.setFlavour.FlavourShown where
  dng := by
    change (d.mainDirectories.head?.any _ = true) ↔ d.LooksDng
    rw [Option.any_eq_true]
    rfl
  cr2 := by
    change ((d.mainDirectories.length == cr2Directories &&
      d.mainDirectories.getLast?.any _) = true) ↔ d.LooksCr2
    rw [Bool.and_eq_true, beq_iff_eq, Option.any_eq_true]
    rfl

variable {d e : Description}

/-- Where there are no directories none is what a file without a flavour has. -/
theorem Flavourless.shown (h : d.Flavourless) (hempty : d.mainDirectories = []) :
    d.FlavourShown where
  dng := by simp [h.dng, LooksDng, hempty]
  cr2 := by simp [h.cr2, LooksCr2, hempty]

theorem FlavourShown.congr (h : d.FlavourShown) (hdng : e.isDng = d.isDng)
    (hcr2 : e.isCr2 = d.isCr2) (hsame : e.survey.directories = d.survey.directories) :
    e.FlavourShown := by
  have hmains : e.mainDirectories = d.mainDirectories := by
    rw [mainDirectories, mainDirectories, hsame]
  refine ⟨?_, ?_⟩
  · rw [hdng, LooksDng, hmains]
    exact h.dng
  · rw [hcr2, LooksCr2, hmains]
    exact h.cr2

theorem flavour_checkBaseline (d : Description) :
    d.checkBaseline.isDng = d.isDng ∧ d.checkBaseline.isCr2 = d.isCr2 := by
  rw [checkBaseline]
  split
  · exact ⟨rfl, rfl⟩
  · rw [foldl_report]
    exact ⟨rfl, rfl⟩

theorem not_hasFailedRead (h : d.survey.Unfailed) : ¬ d.HasFailedRead := by
  rintro ⟨cause, hmem⟩
  cases h _ hmem

theorem hasFailedRead_report (d : Description) (cause : ReadError) :
    (d.report (.readingError cause)).HasFailedRead :=
  ⟨cause, by simp [findings, report, Survey.report]⟩

/-- A check tells the flavour from the directories, or ends with a failed read and tells none. -/
theorem flavour_check (hstart : d.survey = .start .default) (hnone : d.Flavourless)
    (settings : Settings) (header : Header) (source : Source) :
    (¬ (d.check settings header source).HasFailedRead ∧
      (d.check settings header source).FlavourShown) ∨
    (d.check settings header source).HasFailedRead ∧
      (d.check settings header source).Flavourless := by
  have hplain : d.survey.Plain fun _ => True := by
    rw [hstart]
    exact List.forall_mem_nil _
  have hempty : d.mainDirectories = [] := by
    rw [mainDirectories, hstart]
    rfl
  rw [check]
  cases hoffset : header.firstOffset source with
  | error obstacle =>
    cases obstacle with
    | defect finding =>
      have hfound := hplain.report (Header.plain_of_firstOffset hoffset)
      exact .inl ⟨not_hasFailedRead hfound.unfailed, hnone.shown hempty |>.congr rfl rfl rfl⟩
    | failure cause => exact .inr ⟨hasFailedRead_report d cause, hnone.dng, hnone.cr2⟩
  | ok offset =>
    have hwalked := hplain.walk (c := ⟨source, settings, header.encoding⟩)
      (fun _ _ _ _ => trivial) offset
    dsimp only
    rw [walk]
    generalize d.survey.walk ⟨source, settings, header.encoding⟩ offset = result at hwalked ⊢
    obtain ⟨_, t⟩ | ⟨cause, t⟩ := result
    · have hshown := flavourShown_setFlavour { d with survey := t }
      have hunfailed : ({ d with survey := t } : Description).setFlavour.survey.Unfailed :=
        hwalked.unfailed
      dsimp only
      split
      · obtain ⟨hdng, hcr2⟩ :=
          flavour_checkBaseline ({ d with survey := t } : Description).setFlavour
        exact .inl ⟨not_hasFailedRead (unfailed_checkBaseline hunfailed),
          hshown.congr hdng hcr2 (checkBaseline_keeps _).2.1⟩
      · exact .inl ⟨not_hasFailedRead hunfailed, hshown⟩
    · exact .inr ⟨hasFailedRead_report _ cause, hnone.dng, hnone.cr2⟩

end Description

namespace Decoder

variable {d : Decoder} {source : Source}

/-- What is wrong with a header is never told as a failed read. -/
theorem not_hasFailedRead_of_unreadable {finding : Finding}
    (h : Header.read source = .error finding) :
    ¬ (d.reset.description.report finding).HasFailedRead := by
  rintro ⟨cause, hmem⟩
  obtain rfl : finding = .readingError cause := by
    simpa [Description.findings, Description.report, Survey.report, reset, new,
      Description.empty, Survey.start, eq_comm] using hmem
  rw [Header.read] at h
  split at h
  · cases h
  · cases (Header.plain_of_ofBytes h).no_cause

theorem flavour_cases (d : Decoder) (source : Source) :
    (¬ (d.process source).description.HasFailedRead ∧
      (d.process source).description.FlavourShown) ∨
    (d.process source).description.HasFailedRead ∧
      (d.process source).description.Flavourless := by
  rw [description_process]
  cases hheader : Header.read source with
  | error finding =>
    have hnone : (d.reset.description.report finding).Flavourless := ⟨rfl, rfl⟩
    exact .inl ⟨not_hasFailedRead_of_unreadable hheader, hnone.shown rfl⟩
  | ok header =>
    have hnone : ({ d.reset.description with header := some header } : Description).Flavourless :=
      ⟨rfl, rfl⟩
    dsimp only
    split
    · exact .inl ⟨by rintro ⟨_, ⟨⟩⟩, hnone.shown rfl⟩
    · exact Description.flavour_check rfl hnone _ header source

theorem shortName_iff (d : Decoder) :
    (d.shortName = "DNG" ↔ d.description.isDng = true) ∧
    (d.shortName = "CR2" ↔ ¬ d.description.isDng = true ∧ d.description.isCr2 = true) ∧
    (d.shortName = "TIFF" ↔ ¬ d.description.isDng = true ∧ ¬ d.description.isCr2 = true) := by
  rw [shortName]
  cases d.description.isDng <;> cases d.description.isCr2 <;> decide

/-- A file is of the flavour that its directories show, and goes by its name, unless a read fails
behind the header. Then it is of none, also where the directories that were read show one. -/
theorem flavour_iff (d : Decoder) (source : Source) :
    let after := (d.process source).description
    (after.isDng = true ↔ ¬ after.HasFailedRead ∧ after.LooksDng) ∧
    (after.isCr2 = true ↔ ¬ after.HasFailedRead ∧ after.LooksCr2) ∧
    ((d.process source).shortName = "DNG" ↔ ¬ after.HasFailedRead ∧ after.LooksDng) ∧
    ((d.process source).shortName = "CR2" ↔
      ¬ after.HasFailedRead ∧ ¬ after.LooksDng ∧ after.LooksCr2) ∧
    ((d.process source).shortName = "TIFF" ↔
      after.HasFailedRead ∨ ¬ after.LooksDng ∧ ¬ after.LooksCr2) := by
  intro after
  obtain ⟨hnamedDng, hnamedCr2, hnamedTiff⟩ := shortName_iff (d.process source)
  rw [hnamedDng, hnamedCr2, hnamedTiff]
  obtain ⟨hread, hshown⟩ | ⟨hfailed, hnone⟩ := flavour_cases d source
  · have hdng : after.isDng = true ↔ after.LooksDng := hshown.dng
    have hcr2 : after.isCr2 = true ↔ after.LooksCr2 := hshown.cr2
    have hread : ¬ after.HasFailedRead := hread
    simp only [show (d.process source).description = after from rfl, hdng, hcr2, hread,
      not_false_eq_true, true_and, false_or, and_self]
  · have hdng : after.isDng = false := hnone.dng
    have hcr2 : after.isCr2 = false := hnone.cr2
    have hfailed : after.HasFailedRead := hfailed
    simp [show (d.process source).description = after from rfl, hdng, hcr2, hfailed]

/-- What the directories show is not told of a file in which a later directory cannot be read. -/
theorem flavour_lost_cutOff :
    ¬ ∀ (d : Decoder) (source : Source),
      (d.process source).description.isDng = true ↔ (d.process source).description.LooksDng := by
  intro hall
  have hfirst : ((new {}).process .cutOff).description.mainDirectories.head?.any
      (·.contains Tag.dngVersion) = true := by decide +kernel
  have hshows : ((new {}).process .cutOff).description.LooksDng := by
    rwa [Option.any_eq_true] at hfirst
  have htold := (hall (new {}) .cutOff).mpr hshows
  have hlost : ((new {}).process .cutOff).description.isDng = false := by decide +kernel
  cases hlost.symm.trans htold

end Decoder
end ImageAudit.Tiff
