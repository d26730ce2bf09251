import ImageAudit.Inspection.Decoders
import ImageAudit.Proofs.Tiff.Derivation

/-! Recognising a file. A decoder tells by the first bytes whether a file is of its format, and
nothing that is checked behind them changes that. Identifying a file before it is processed makes no
difference. -/
namespace ImageAudit

namespace Jpeg

def Outcome.stream : Outcome → Stream
  | .finish s => s
  | .advance t => t.stream

namespace Stream

theorem identified_take (s : Stream) (m : Marker) : (s.take m).1.identified = s.identified := by
  unfold take
  split
  · rfl
  split
  · unfold takeScan
    split <;> rfl
  split
  · rfl
  split
  · rfl
  split
  · simp only [takeRestartInterval]
    split <;> rfl
  · rfl

theorem identified_checkScanData (s : Stream) (data : ByteArray) (offset : Nat) :
    (s.checkScanData data offset).identified = s.identified := by
  unfold checkScanData
  split
  · split <;> rfl
  · rfl

end Stream

namespace Scanner

theorem identified_leave (source : Source) (s : Stream) (m : Marker) (next : Nat) :
    (leave source s m next).stream.identified = s.identified := by
  simp only [leave]
  split
  · rfl
  split
  · split <;> rfl
  · rfl

theorem identified_step (source : Source) (s : Scanner) :
    (step source s).stream.identified = s.stream.identified := by
  unfold step
  split
  · rfl
  · rfl
  · next m next _ =>
    simp only [enter]
    split
    · rw [takeScanData]
      cases EntropyData.read source next with
      | error e => exact s.stream.identified_take m
      | ok data =>
        refine (identified_leave _ _ _ _).trans ?_
        rw [Stream.identified_checkScanData, Stream.identified_take]
    · rw [identified_leave, Stream.identified_take]

theorem identified_run (source : Source) (s : Scanner) :
    (run source s).identified = s.stream.identified := by
  fun_induction run source s with
  | case1 s t hstep =>
    have hsame := identified_step source s
    rwa [hstep] at hsame
  | case2 s t hstep _ ih =>
    have hsame := identified_step source s
    rw [hstep] at hsame
    exact ih.trans hsame

end Scanner

namespace Decoder

variable {d : Decoder} {source : Source}

theorem identified_process (d : Decoder) (source : Source) :
    (d.process source).stream.identified = (d.identify source).stream.identified := by
  simp only [process]
  split
  · rfl
  · exact Scanner.identified_run source _

theorem process_identify (d : Decoder) (source : Source) :
    (d.identify source).process source = d.process source := rfl

theorem process_of_isIdentify (h : d.settings.isIdentify = true) :
    d.process source = d.identify source :=
  if_pos (Bool.or_eq_true_iff.mpr (.inr h))

theorem process_of_not_identified (h : (d.identify source).stream.identified = false) :
    d.process source = d.identify source :=
  if_pos (Bool.or_eq_true_iff.mpr (.inl (by rw [h]; rfl)))

end Decoder
end Jpeg

namespace Tiff

namespace Description

theorem header_checkBaseline (d : Description) : d.checkBaseline.header = d.header := by
  unfold checkBaseline
  split
  · rfl
  · rw [foldl_report]

theorem header_check (d : Description) (settings : Settings) (header : Header) (source : Source) :
    (d.check settings header source).header = d.header := by
  unfold check
  split
  · rfl
  · rfl
  · next offset _ =>
    have hwalk := header_walk ⟨source, settings, header.encoding⟩ offset d
    split
    · next hfail =>
      rw [hfail] at hwalk
      exact hwalk
    · next hdone =>
      rw [hdone] at hwalk
      split
      · exact (header_checkBaseline _).trans hwalk
      · exact hwalk

end Description

namespace Decoder

variable {d : Decoder} {source : Source}

theorem isIdentified_process (d : Decoder) (source : Source) :
    (d.process source).isIdentified = (d.identify source).isIdentified := by
  simp only [process, isIdentified]
  split
  · rfl
  · split
    · rfl
    · exact congrArg Option.isSome (Description.header_check _ _ _ _)

theorem process_identify (d : Decoder) (source : Source) :
    (d.identify source).process source = d.process source := rfl

theorem process_of_isIdentify (h : d.settings.isIdentify = true) :
    d.process source = d.identify source := by
  simp only [process]
  split
  · rfl
  · exact if_pos h

theorem process_of_not_isIdentified (h : (d.identify source).isIdentified = false) :
    d.process source = d.identify source := by
  rw [isIdentified, Option.isSome_eq_false_iff, Option.isNone_iff_eq_none] at h
  simp only [process, h]

/-- What is known of a file: what is wrong with its header, the header alone, or what was found
behind it. -/
theorem description_process (d : Decoder) (source : Source) :
    (d.process source).description =
      match Header.read source with
      | .error finding => d.reset.description.report finding
      | .ok header =>
        let start := { d.reset.description with header := some header }
        if d.settings.isIdentify then start else start.check d.settings header source := by
  simp only [process, identify, Description.readHeader]
  cases Header.read source with
  | error finding => rfl
  | ok header => exact apply_ite Decoder.description _ _ _

end Decoder
end Tiff
end ImageAudit
