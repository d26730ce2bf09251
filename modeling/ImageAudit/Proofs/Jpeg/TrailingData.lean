import ImageAudit.Inspection.Decoders
import ImageAudit.Proofs.Jpeg.MarkerLoop
import ImageAudit.Proofs.Jpeg.ScanExtent

/-! Bytes behind the end of an image. Up to the end of the image no step depends on what follows it,
so a stream that is checked without a finding is read alike with any bytes added behind it, alone or
as part of another file. Alone, the added bytes are the one thing that is found. -/
namespace ImageAudit

theorem StandsAt.append_right {bytes content : List UInt8} {offset : Nat}
    (h : StandsAt bytes content offset) (more : List UInt8) :
    StandsAt bytes (content ++ more) offset := by
  obtain ⟨hle, hprefix⟩ := h
  refine ⟨by rw [List.length_append]; omega, ?_⟩
  rw [List.drop_append_of_le_length hle]
  exact hprefix.trans (List.prefix_append _ _)

namespace Jpeg

def Stream.setEmbedded (s : Stream) (embedded : Bool) : Stream := { s with embedded }

def Scanner.setEmbedded (s : Scanner) (embedded : Bool) : Scanner :=
  { s with stream := s.stream.setEmbedded embedded }

def Stream.push (s : Stream) (m : Marker) : Stream := { s with markers := s.markers.push m }

/-- The stream where it ends at `stop` in a source of `length` bytes. Only a stream that stands alone
must end where its source does. -/
def Stream.close (s : Stream) (embedded : Bool) (stop length : Nat) : Stream :=
  if !embedded && stop != length then
    (s.setEmbedded embedded).report (.dataAfterEnd stop length)
  else s.setEmbedded embedded

theorem Stream.close_self (s : Stream) (embedded : Bool) (stop : Nat) :
    s.close embedded stop stop = s.setEmbedded embedded := by
  simp [close]

namespace Outcome

/-- The step goes on inside the first `length` bytes, or it ends the stream without a finding. -/
def Within (length : Nat) : Outcome → Prop
  | advance s => s.offset < length
  | finish s => s.findings = []

/-- What the step leads to where the stream ends at `stop` in a source of `length` bytes. -/
def close (embedded : Bool) (stop length : Nat) : Outcome → Outcome
  | advance s => advance (s.setEmbedded embedded)
  | finish s => finish (s.close embedded stop length)

end Outcome

variable {short long : Source} {content more whole : List UInt8}

theorem Marker.readAt_append (hshort : short.Holds content) (hlong : long.Holds (content ++ more))
    {offset number : Nat} {found : Found} (h : readAt short offset number = .ok found) :
    readAt long offset number = .ok found := by
  cases found with
  | fill =>
    rw [readAt_fill_iff hshort] at h
    exact (readAt_fill_iff hlong).mpr (h.append_right more)
  | marker m next =>
    rw [readAt_marker_iff hshort] at h
    obtain ⟨hstored, hunread, hstart, hoffset, hnumber, hbytes, hnext⟩ := h
    exact (readAt_marker_iff hlong).mpr
      ⟨hstored, hunread, hstart, hoffset, hnumber, hbytes.append_right more, hnext⟩

/-- Data that end inside the shorter source end there in the longer one. -/
theorem EntropyData.read_append (hshort : short.Holds content)
    (hlong : long.Holds (content ++ more)) {offset : Nat} {data : ByteArray}
    (h : read short offset = .ok data) (hlt : offset + data.size < content.length) :
    read long offset = .ok data := by
  rw [read_eq hshort] at h
  obtain rfl := Except.ok.inj h
  have hproper : extent (content.drop offset) ≠ content.drop offset := by
    intro heq
    rw [heq] at hlt
    have hsize : (ByteArray.mk (content.drop offset).toArray).size = content.length - offset :=
      List.length_drop
    omega
  rw [read_eq hlong, List.drop_append_of_le_length (by omega), extent_append hproper]

namespace Stream

variable (s : Stream) (embedded : Bool)

theorem findings_setEmbedded : (s.setEmbedded embedded).findings = s.findings := rfl

theorem take_setEmbedded (m : Marker) :
    (s.setEmbedded embedded).take m = ((s.take m).1.setEmbedded embedded, (s.take m).2) := by
  unfold take
  split
  · rfl
  split
  · unfold takeScan
    cases hframe : s.frame with
    | none => simp [setEmbedded, hframe, report]
    | some f => simp [setEmbedded, hframe, reportAll]
  split
  · rfl
  split
  · rfl
  split
  · simp only [takeRestartInterval]
    split <;> rfl
  · rfl

theorem checkScanData_setEmbedded (data : ByteArray) (offset : Nat) :
    (s.setEmbedded embedded).checkScanData data offset =
      (s.checkScanData data offset).setEmbedded embedded := by
  have hframe : (s.setEmbedded embedded).frame = s.frame := rfl
  have hscans : (s.setEmbedded embedded).numScans = s.numScans := rfl
  simp only [checkScanData, hframe, hscans]
  cases s.frame with
  | none => rfl
  | some f => dsimp only; split <;> rfl

end Stream

namespace Scanner

variable {s t : Scanner} {stream : Stream} {m : Marker} {next : Nat}

theorem leave_of_findings (h : stream.findings ≠ []) (source : Source) (m : Marker) (next : Nat) :
    leave source stream m next = .finish (stream.push m) :=
  if_pos (by simpa [Stream.isClean] using h)

theorem leave_of_clean (h : stream.findings = []) (source : Source) (m : Marker) (next : Nat) :
    leave source stream m next =
      if m.id = MarkerId.endOfImage then
        .finish ((stream.push m).close stream.embedded next source.length)
      else .advance ⟨next, m.number + 1, stream.push m⟩ := by
  rw [Stream.close, leave, if_neg (by simp [Stream.isClean, h])]
  split
  · split <;> rfl
  · rfl

/-- Behind a marker all that counts of a source is its length, and that at the end of the image. -/
theorem leave_close (embedded : Bool) (hshort : short.Holds content) (hlong : long.Holds whole)
    (halone : stream.embedded = false)
    (hwithin : (leave short stream m next).Within content.length) :
    leave long (stream.setEmbedded embedded) m next =
      (leave short stream m next).close embedded content.length whole.length := by
  by_cases hclean : stream.findings = []
  · have hclean' : (stream.setEmbedded embedded).findings = [] := hclean
    rw [leave_of_clean hclean] at hwithin ⊢
    rw [leave_of_clean hclean', hlong.length_eq]
    rw [halone, hshort.length_eq] at hwithin ⊢
    split at hwithin
    · next hend =>
      have hnext : next = content.length := by
        by_contra hne
        simp [Outcome.Within, Stream.close, hne, Stream.report] at hwithin
      rw [if_pos hend, if_pos hend, hnext, Outcome.close, Stream.close_self]
      rfl
    · next hend =>
      rw [if_neg hend, if_neg hend]
      rfl
  · rw [leave_of_findings hclean] at hwithin
    exact absurd hwithin hclean

theorem lt_of_leave (hid : m.id ≠ MarkerId.endOfImage)
    (hwithin : (leave short stream m next).Within content.length) : next < content.length := by
  by_cases hclean : stream.findings = []
  · rw [leave_of_clean hclean, if_neg hid] at hwithin
    exact hwithin
  · rw [leave_of_findings hclean] at hwithin
    exact absurd hwithin hclean

theorem enter_close (embedded : Bool) (hshort : short.Holds content)
    (hlong : long.Holds (content ++ more)) (halone : stream.embedded = false)
    (hwithin : (enter short stream m next).Within content.length) :
    enter long (stream.setEmbedded embedded) m next =
      (enter short stream m next).close embedded content.length (content ++ more).length := by
  obtain ⟨⟨index, hmarker⟩, _, hembedded⟩ := stream.takes_take m
  rw [halone] at hembedded
  simp only [enter, Stream.take_setEmbedded] at hwithin ⊢
  generalize stream.take m = taken at *
  have hsame : (taken.1.setEmbedded embedded).isClean = taken.1.isClean := rfl
  rw [hsame]
  split at hwithin
  · next hscan =>
    rw [if_pos hscan, if_pos hscan]
    simp only [takeScanData] at hwithin ⊢
    cases hread : EntropyData.read short next with
    | error cause => simp [hread, Except.map, Outcome.Within, Stream.report] at hwithin
    | ok data =>
      -- A scan header does not end the image, so more than the data of the scan follows.
      have hid : taken.2.id ≠ MarkerId.endOfImage := by rw [hscan.1]; decide
      rw [hread] at hwithin
      have hlt := lt_of_leave hid hwithin
      rw [EntropyData.read_append hshort hlong hread hlt]
      simp only [Except.map, Stream.checkScanData_setEmbedded]
      exact leave_close embedded hshort hlong
        ((checkScanData_keeps taken.1 data next).2.trans hembedded) hwithin
  · next hscan =>
    rw [if_neg hscan, if_neg hscan]
    exact leave_close embedded hshort hlong hembedded hwithin

/-- A step inside the shorter source leads to the same in the longer one. -/
theorem step_close (embedded : Bool) (hshort : short.Holds content)
    (hlong : long.Holds (content ++ more)) (halone : s.stream.embedded = false)
    (hwithin : (step short s).Within content.length) :
    step long (s.setEmbedded embedded) =
      (step short s).close embedded content.length (content ++ more).length := by
  unfold step at hwithin ⊢
  cases hread : Marker.readAt short s.offset s.number with
  | error finding => simp [hread, Outcome.Within, Stream.report] at hwithin
  | ok found =>
    have hsame : Marker.readAt long (s.setEmbedded embedded).offset
        (s.setEmbedded embedded).number = .ok found := Marker.readAt_append hshort hlong hread
    rw [hread] at hwithin
    rw [hsame]
    cases found with
    | fill => rfl
    | marker m next => exact enter_close embedded hshort hlong halone hwithin

theorem embedded_of_step (h : short.Holds content) (hstep : step short s = .advance t) :
    t.stream.embedded = s.stream.embedded := by
  have hsteps := steps_step h s
  rw [hstep] at hsteps
  cases hsteps with
  | fill => rfl
  | more _ _ _ hembedded => exact hembedded

/-- A run without a finding begins inside the source. -/
theorem lt_of_run (h : short.Holds content) (hclean : (run short s).findings = []) :
    s.offset < content.length := by
  cases hread : Marker.readAt short s.offset s.number with
  | error finding =>
    have hstep : step short s = .finish (s.stream.report finding) := by rw [step, hread]
    rw [run_finish hstep] at hclean
    simp [Stream.report] at hclean
  | ok found =>
    rw [← h.length_eq]
    exact Marker.lt_length_of_readAt hread

/-- A stream that stands alone and is read without a finding is read alike where more bytes follow,
up to what they mean for its end. -/
theorem run_close (embedded : Bool) (hshort : short.Holds content)
    (hlong : long.Holds (content ++ more)) (halone : s.stream.embedded = false)
    (hclean : (run short s).findings = []) :
    run long (s.setEmbedded embedded) =
      (run short s).close embedded content.length (content ++ more).length := by
  fun_induction run short s with
  | case1 s stream hstep =>
    have hsame := step_close embedded hshort hlong halone (by rw [hstep]; exact hclean)
    rw [hstep] at hsame
    exact run_finish hsame
  | case2 s t hstep _ ih =>
    -- That the step stays inside the shorter source is known from the rest of the run alone.
    have hlt := lt_of_run hshort hclean
    have hsame := step_close embedded hshort hlong halone (by rw [hstep]; exact hlt)
    rw [hstep] at hsame
    rw [run_advance hsame]
    exact ih ((embedded_of_step hshort hstep).trans halone) hclean

end Scanner

namespace Decoder

variable {d : Decoder}

/-- What another decoder makes of a stream with more bytes behind it. -/
theorem stream_process_append (hmode : d.settings.mode = .check) (halone : d.embedded = false)
    (hshort : short.Holds content) (hlong : long.Holds (content ++ more))
    (hclean : (d.process short).stream.findings = []) (embedded : Bool) :
    (Decoder.process { d with embedded } long).stream =
      (d.process short).stream.close embedded content.length (content ++ more).length := by
  have hstart := standsAt_of_findings hshort hclean
  have hmode' : ({ d with embedded } : Decoder).settings.mode = .check := hmode
  rw [stream_process hmode hshort hstart] at hclean ⊢
  rw [stream_process hmode' hlong (hstart.append_right more)]
  exact Scanner.run_close embedded hshort hlong halone hclean

theorem setEmbedded_process (hmode : d.settings.mode = .check) (halone : d.embedded = false)
    (hshort : short.Holds content) (hclean : (d.process short).stream.findings = [])
    (embedded : Bool) :
    (Decoder.process { d with embedded } short).stream =
      (d.process short).stream.setEmbedded embedded := by
  have hsame : short.Holds (content ++ []) := by rwa [List.append_nil]
  rw [stream_process_append hmode halone hshort hsame hclean, List.append_nil, Stream.close_self]

/-- To a decoder of streams that stand alone the bytes behind the end are what is found. -/
theorem report_process (hmode : d.settings.mode = .check) (halone : d.embedded = false)
    (hshort : short.Holds content) (hclean : (d.process short).stream.findings = [])
    (hlong : long.Holds (content ++ more)) (hmore : more ≠ []) :
    (d.process long).stream = (d.process short).stream.report
      (.dataAfterEnd content.length (content.length + more.length)) := by
  have hself : ({ d with embedded := false } : Decoder) = d := by rw [← halone]
  have hdiffers : content.length ≠ content.length + more.length := by
    have := List.length_pos_iff.mpr hmore
    omega
  have hlonger := stream_process_append hmode halone hshort hlong hclean false
  have hshorter := setEmbedded_process hmode halone hshort hclean false
  rw [hself] at hlonger hshorter
  rw [hlonger, Stream.close, List.length_append, ← hshorter, if_pos (by simpa using hdiffers)]

/-- Bytes behind the end of a stream that stands alone and has no finding change nothing but that
they are found themselves, and a decoder of embedded streams does not find even them. So no stream
without a finding that stands alone begins with another one. -/
theorem process_append (hmode : d.settings.mode = .check) (halone : d.embedded = false)
    (hshort : short.Holds content) (hclean : (d.process short).stream.findings = []) :
    (∀ more long, more ≠ [] → long.Holds (content ++ more) →
      (d.process long).stream = { (d.process short).stream with
        findings := [.dataAfterEnd content.length (content.length + more.length)] } ∧
      (d.process long).verdict.log = [⟨.warning, "jpeg.warn.extraneous_data_after_end_of_stream",
        Catalog.english.text "jpeg.warn.extraneous_data_after_end_of_stream"
          [toString content.length, toString (content.length + more.length)]⟩] ∧
      (Decoder.process { d with embedded := true } long).stream =
        { (d.process short).stream with embedded := true }) ∧
    (Decoder.process { d with embedded := true } short).stream =
      { (d.process short).stream with embedded := true } ∧
    ∀ beginning source, source.Holds beginning → beginning <+: content →
      (d.process source).stream.findings = [] → beginning = content := by
  refine ⟨?_, setEmbedded_process hmode halone hshort hclean true, ?_⟩
  · intro more long hmore hlong
    have hreport := report_process hmode halone hshort hclean hlong hmore
    refine ⟨?_, ?_, ?_⟩
    · rw [hreport, Stream.report, hclean, List.nil_append]
    · rw [verdict, hreport, Stream.report, hclean]
      rfl
    · exact stream_process_append hmode halone hshort hlong hclean true
  · rintro beginning source hsource ⟨more, rfl⟩ hfound
    by_contra hne
    have hmore : more ≠ [] := fun hnil => hne (by rw [hnil, List.append_nil])
    rw [report_process hmode halone hsource hfound hshort hmore] at hclean
    simp [Stream.report] at hclean

/-- A gray image with two bytes behind it. -/
theorem process_append_grayBlock :
    let d := Decoder.new {} false
    let image := Source.ofBytes "gray" grayBlock
    let padded := Source.ofBytes "padded" (grayBlock ++ ⟨#[0, 0]⟩)
    (d.process image).stream.findings = [] ∧
      (d.process padded).stream =
        { (d.process image).stream with findings := [.dataAfterEnd 68 70] } ∧
      (Decoder.process { d with embedded := true } padded).stream.findings = [] := by
  intro d image padded
  have himage : image.Holds grayBlock.data.toList := .ofBytes "gray" (by decide)
  have hpadded : padded.Holds (grayBlock ++ ⟨#[0, 0]⟩ : ByteArray).data.toList :=
    .ofBytes "padded" (by decide)
  rw [ByteArray.data_append, Array.toList_append] at hpadded
  have hclean : (d.process image).stream.findings = [] := by decide +kernel
  obtain ⟨hreport, _, hembedded⟩ :=
    (process_append rfl rfl himage hclean).1 [0, 0] padded (by decide) hpadded
  have hsame := Stream.findings_setEmbedded (d.process image).stream true
  exact ⟨hclean, hreport, (congrArg Stream.findings hembedded).trans (hsame.trans hclean)⟩

end Decoder
end Jpeg
end ImageAudit
