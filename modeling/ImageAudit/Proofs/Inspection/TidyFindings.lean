import ImageAudit.Proofs.Message.Rendering
import ImageAudit.Proofs.Tiff.FailedRead
import ImageAudit.Proofs.Traced.Jpeg

/-! The texts of findings on a file whose failed reads are told tidily. They are tidy as well, but
for what the one finding on a moment quotes from the file. -/
namespace ImageAudit

def Source.FailsTidily (source : Source) : Prop :=
  ∀ ⦃offset count cause⦄, source.read offset count = .error cause → Text.Tidy cause.message

namespace Source

theorem tidy_outOfRange (offset requested length : Nat) :
    Text.Tidy (ReadError.outOfRange offset requested length).message := by
  have hstart : Text.Tidy "Range out of bounds: requested " := Text.tidy_literal rfl
  have hoffset : Text.Tidy " bytes at offset " := Text.tidy_literal rfl
  have hsize : Text.Tidy ", size is " := Text.tidy_literal rfl
  unfold ReadError.message
  dsimp only
  simp only [Text.tidy_append, hstart, hoffset, hsize, Text.tidy_nat, and_self]

theorem failsTidily_ofBytes (name : String) (data : ByteArray) :
    (ofBytes name data).FailsTidily := by
  intro offset count cause h
  rw [read] at h
  split at h
  · cases h
  · obtain rfl := Except.error.inj h
    exact tidy_outOfRange _ _ _

theorem FailsTidily.window {source : Source} (h : source.FailsTidily) (start length : Nat) :
    (source.window start length).FailsTidily := by
  intro offset count cause hread
  rw [read] at hread
  split at hread
  · exact h hread
  · obtain rfl := Except.error.inj hread
    exact tidy_outOfRange _ _ _

end Source

namespace Jpeg

theorem MarkerId.tidy_name (id : Nat) : Text.Tidy (name id) := by
  have hmnemonics : ∀ entry ∈ mnemonics, Text.Tidy entry.2 := by decide +kernel
  rw [name]
  split
  · next found hfound =>
    obtain ⟨before, after, hsplit, _⟩ := List.lookup_eq_some_iff.mp hfound
    exact hmnemonics (id, found) (by simp [hsplit])
  split
  · exact Text.tidy_append.mpr ⟨by decide, Text.tidy_nat _⟩
  split
  · exact Text.tidy_append.mpr ⟨by decide, Text.tidy_nat _⟩
  · exact Text.tidy_append.mpr ⟨by decide, Text.tidy_hex 4 id⟩

theorem TableClass.tidy_name (t : TableClass) : Text.Tidy t.name := by cases t <;> decide

namespace Finding

def Tidy (f : Finding) : Prop := ∀ arg ∈ f.args, Text.Tidy arg

theorem tidy_of_isNumeric {f : Finding} (h : f.isNumeric = true) : f.Tidy := by
  cases f <;> simp only [isNumeric, Bool.false_eq_true] at h <;>
    simp [Tidy, args, TableClass.tidy_name]

theorem tidy_key (f : Finding) : Text.Tidy f.key := by cases f <;> exact Text.tidy_literal rfl

end Finding

variable {source : Source} {finding : Finding}

namespace Marker

theorem tidy_of_readWord (h : source.FailsTidily) {offset : Nat}
    (hread : readWord source offset = .error finding) : finding.Tidy := by
  rw [readWord] at hread
  split at hread
  · obtain rfl := Except.error.inj hread
    exact Finding.tidy_of_isNumeric rfl
  · split at hread
    · next hfails =>
      obtain rfl := Except.error.inj hread
      exact List.forall_mem_singleton.mpr (h hfails)
    · cases hread

theorem tidy_of_readPayload (h : source.FailsTidily) {offset count : Nat}
    (hread : readPayload source offset count = .error finding) : finding.Tidy := by
  rw [readPayload] at hread
  split at hread
  · obtain rfl := Except.error.inj hread
    exact Finding.tidy_of_isNumeric rfl
  split at hread
  · cases hread
  · split at hread
    · next hfails =>
      obtain rfl := Except.error.inj hread
      exact List.forall_mem_singleton.mpr (h hfails)
    · cases hread

theorem tidy_of_readSegment (h : source.FailsTidily) {id offset number : Nat}
    (hread : readSegment source id offset number = .error finding) : finding.Tidy := by
  simp only [readSegment] at hread
  split at hread
  · next hlength =>
    obtain rfl := Except.error.inj hread
    exact tidy_of_readWord h hlength
  split at hread
  · obtain rfl := Except.error.inj hread
    simp [Finding.Tidy, Finding.args, MarkerId.tidy_name]
  · split at hread
    · next hpayload =>
      obtain rfl := Except.error.inj hread
      exact tidy_of_readPayload h hpayload
    · cases hread

theorem tidy_of_readMarker (h : source.FailsTidily) {id offset number : Nat}
    (hread : readMarker source id offset number = .error finding) : finding.Tidy := by
  rw [readMarker] at hread
  split at hread
  · obtain rfl := Except.error.inj hread
    simp [Finding.Tidy, Finding.args, MarkerId.tidy_name]
  split at hread
  · obtain rfl := Except.error.inj hread
    exact Finding.tidy_of_isNumeric rfl
  split at hread
  · exact tidy_of_readSegment h hread
  · cases hread

theorem tidy_of_readAt (h : source.FailsTidily) {offset number : Nat}
    (hread : readAt source offset number = .error finding) : finding.Tidy := by
  rw [readAt] at hread
  split at hread
  · next hid =>
    obtain rfl := Except.error.inj hread
    exact tidy_of_readWord h hid
  split at hread
  · cases hread
  · exact tidy_of_readMarker h hread

end Marker

def Stream.Tidy (s : Stream) : Prop := ∀ f ∈ s.findings, f.Tidy

namespace Stream

variable {s t : Stream}

theorem Tidy.report (h : s.Tidy) (hfinding : finding.Tidy) : (s.report finding).Tidy :=
  List.forall_mem_append.mpr ⟨h, List.forall_mem_singleton.mpr hfinding⟩

theorem Tidy.append (h : s.Tidy) {more : List Finding} (ht : t.findings = s.findings ++ more)
    (hmore : Numeric more) : t.Tidy := by
  rw [Tidy, ht]
  exact List.forall_mem_append.mpr ⟨h, fun f hf => Finding.tidy_of_isNumeric (hmore f hf)⟩

theorem Tidy.take (h : s.Tidy) (m : Marker) : (s.take m).1.Tidy := by
  obtain ⟨more, hfindings, hmore⟩ := s.exists_findings_take m
  exact h.append hfindings hmore

theorem Tidy.checkScanData (h : s.Tidy) (data : ByteArray) (offset : Nat) :
    (s.checkScanData data offset).Tidy := by
  obtain ⟨more, hfindings, hmore⟩ := s.exists_findings_checkScanData data offset
  exact h.append hfindings hmore

end Stream

namespace Scanner

theorem tidy_leave (source : Source) {s : Stream} (h : s.Tidy) (m : Marker) (next : Nat) :
    (leave source s m next).stream.Tidy := by
  simp only [leave]
  split
  · exact h
  split
  · split
    · exact Stream.Tidy.report (s := { s with markers := s.markers.push m }) h
        (Finding.tidy_of_isNumeric rfl)
    · exact h
  · exact h

theorem tidy_enter (hsource : source.FailsTidily) {s : Stream} (h : s.Tidy) (m : Marker)
    (next : Nat) : (enter source s m next).stream.Tidy := by
  have htaken := h.take m
  rw [enter]
  generalize s.take m = taken at htaken ⊢
  obtain ⟨s', m'⟩ := taken
  dsimp only at htaken ⊢
  split
  · have hdata := EntropyData.gives_tracedFrom source next .empty 0
    rw [takeScanData, EntropyData.read]
    generalize EntropyData.readFrom source next .empty 0 = data at hdata ⊢
    obtain cause | data := data
    · obtain ⟨_, _, hfails⟩ := hdata.exists_read
      exact htaken.report (List.forall_mem_singleton.mpr (hsource hfails))
    · exact tidy_leave source (htaken.checkScanData data next) m' _
  · exact tidy_leave source htaken m' next

theorem tidy_step (hsource : source.FailsTidily) {s : Scanner} (h : s.stream.Tidy) :
    (step source s).stream.Tidy := by
  rw [step]
  split
  · next hread => exact h.report (Marker.tidy_of_readAt hsource hread)
  · exact h
  · exact tidy_enter hsource h _ _

theorem tidy_run (hsource : source.FailsTidily) {s : Scanner} (h : s.stream.Tidy) :
    (run source s).Tidy := by
  have hstep := tidy_step hsource h
  fun_induction run source s with
  | case1 s stream hs =>
    rw [hs] at hstep
    exact hstep
  | case2 s t hs _ ih =>
    rw [hs] at hstep
    exact ih hstep (tidy_step hsource hstep)

end Scanner

theorem Stream.Tidy.identify {s : Stream} (h : s.Tidy) (hsource : source.FailsTidily) :
    (s.identify source).Tidy := by
  rw [Stream.identify]
  split
  · next hfails => exact h.report (List.forall_mem_singleton.mpr (hsource hfails))
  · dsimp only
    split
    · exact h.report (by simp [Finding.Tidy, Finding.args, MarkerId.tidy_name])
    split
    · exact h.report (by simp [Finding.Tidy, Finding.args, MarkerId.tidy_name])
    · exact h

theorem Decoder.tidy_process (d : Decoder) (hsource : source.FailsTidily) :
    (d.process source).stream.Tidy := by
  have hidentify : (d.identify source).stream.Tidy :=
    Stream.Tidy.identify (s := d.reset.stream) (List.forall_mem_nil _) hsource
  rw [process]
  split
  · exact hidentify
  · exact Scanner.tidy_run hsource hidentify

end Jpeg

namespace Tiff

def Finding.quoted : Finding → String
  | .invalidDateTime _ _ value => value
  | _ => ""

end Tiff

namespace Finding

def quoted : Finding → String
  | .tiff f => f.quoted
  | .xmp _ | .jpeg _ => ""

def TellsTidily (f : Finding) : Prop := Text.Tidy f.event.message ↔ Text.Tidy f.quoted

theorem tellsTidily_of_tidy {f : Finding} (hmessage : Text.Tidy f.event.message)
    (hquoted : f.quoted = "") : f.TellsTidily := by
  rw [TellsTidily, hquoted]
  exact iff_of_true hmessage (by decide)

theorem tellsTidily_jpeg {f : Jpeg.Finding} (h : f.Tidy) : (jpeg f).TellsTidily :=
  tellsTidily_of_tidy (Catalog.tidy_text f.tidy_key h) rfl

theorem tellsTidily_xmp (f : Xmp.Finding) : (xmp f).TellsTidily :=
  tellsTidily_of_tidy (Catalog.tidy_text (by cases f <;> exact Text.tidy_literal rfl)
    (List.forall_mem_nil _)) rfl

end Finding

namespace Tiff

theorem Finding.tidy_key (f : Finding) : Text.Tidy f.key := by
  cases f <;> exact Text.tidy_literal rfl

theorem Finding.tidy_args {f : Finding} (hnames : ∀ name ∈ f.names, Text.Tidy name)
    (hcause : ∀ cause, f.cause? = some cause → Text.Tidy cause.message)
    (hquoted : Text.Tidy f.quoted) : ∀ arg ∈ f.args, Text.Tidy arg := by
  cases f with
  | baselinePhotometric value =>
    cases value with
    | none => exact List.forall_mem_singleton.mpr (by decide)
    | some n => exact List.forall_mem_singleton.mpr (Text.tidy_nat n)
  | _ => simp_all [args, names, cause?, quoted]

theorem Finding.tellsTidily {f : Finding} (hnames : ∀ name ∈ f.names, Text.Tidy name)
    (hcause : ∀ cause, f.cause? = some cause → Text.Tidy cause.message) :
    (ImageAudit.Finding.tiff f).TellsTidily := by
  refine ⟨fun hmessage => ?_, fun hquoted =>
    Catalog.tidy_text f.tidy_key (tidy_args hnames hcause hquoted)⟩
  cases f with
  | invalidDateTime tag name value =>
    have hmessage : Text.Tidy (Catalog.english.text "tiff.error.invalid_date_time"
      [toString tag, name, value]) := hmessage
    rw [Catalog.text_invalidDateTime] at hmessage
    simp only [Text.tidy_append] at hmessage
    exact hmessage.1.2
  | _ => exact (by decide : Text.Tidy "")

variable {source : Source}

theorem tellsTidily_of_plainWith {f : ImageAudit.Finding}
    (h : PlainWith Jpeg.Finding.Tidy f) : f.TellsTidily := by
  cases f with
  | tiff f =>
    refine Finding.tellsTidily h.tidy fun cause hcause => ?_
    cases h.no_cause.symm.trans hcause
  | xmp f => exact ImageAudit.Finding.tellsTidily_xmp f
  | jpeg f => exact ImageAudit.Finding.tellsTidily_jpeg h

theorem tellsTidily_readingError {cause : ReadError} (h : Text.Tidy cause.message) :
    (ImageAudit.Finding.tiff (.readingError cause)).TellsTidily :=
  Finding.tellsTidily (List.forall_mem_nil _) fun _ hsame => Option.some.inj hsame ▸ h

theorem tellsTidily_cannotReadHeader {cause : ReadError} (h : Text.Tidy cause.message) :
    (ImageAudit.Finding.tiff (.cannotReadHeader cause)).TellsTidily :=
  Finding.tellsTidily (List.forall_mem_nil _) fun _ hsame => Option.some.inj hsame ▸ h

theorem Context.streamsSatisfy_tidy {c : Context} (h : c.source.FailsTidily) :
    c.StreamsSatisfy Jpeg.Finding.Tidy :=
  fun start length => Jpeg.Decoder.tidy_process _ (h.window start length)

namespace Description

def TellsTidily (d : Description) : Prop := ∀ f ∈ d.findings, f.TellsTidily

variable {d : Description}

theorem tellsTidily_of_plain (h : d.survey.Plain Jpeg.Finding.Tidy) : d.TellsTidily :=
  fun f hf => tellsTidily_of_plainWith (h f hf)

theorem TellsTidily.report (h : d.TellsTidily) {finding : Finding}
    (hfinding : (ImageAudit.Finding.tiff finding).TellsTidily) :
    (d.report finding).TellsTidily := by
  rw [TellsTidily, findings, Description.report, Survey.report, Array.toList_push]
  exact List.forall_mem_append.mpr ⟨h, List.forall_mem_singleton.mpr hfinding⟩

theorem TellsTidily.checkBaseline (h : d.TellsTidily) : d.checkBaseline.TellsTidily := by
  rw [Description.checkBaseline]
  split
  · exact h
  · next first _ =>
    rw [TellsTidily, findings_foldl_report]
    exact List.forall_mem_append.mpr ⟨h, fun f hf =>
      tellsTidily_of_plainWith ((Baseline.plain_check first).map _ f hf)⟩

theorem tellsTidily_check (hplain : d.survey.Plain Jpeg.Finding.Tidy) (settings : Settings)
    (header : Header) (hsource : source.FailsTidily) :
    (d.check settings header source).TellsTidily := by
  have hfirst := header.gives_tracedFirstOffset source
  rw [check]
  cases hoffset : header.firstOffset source with
  | error obstacle =>
    cases obstacle with
    | defect finding =>
      exact tellsTidily_of_plain (hplain.report (Header.plain_of_firstOffset hoffset))
    | failure cause =>
      rw [hoffset] at hfirst
      obtain ⟨_, _, hfails⟩ := hfirst.exists_read
      exact (tellsTidily_of_plain hplain).report (tellsTidily_readingError (hsource hfails))
  | ok offset =>
    let c : Context := ⟨source, settings, header.encoding⟩
    obtain ⟨_, _, hwalk⟩ := d.exists_gives_tracedWalk c offset
    have hafter := hplain.walk (c := c) (Context.streamsSatisfy_tidy hsource) offset
    rw [← survey_walk c offset d] at hafter
    dsimp only
    generalize d.walk c offset = walked at hwalk hafter ⊢
    obtain ⟨cause | _, after⟩ := walked
    · obtain ⟨_, _, hfails⟩ := hwalk.exists_read
      exact (tellsTidily_of_plain hafter).report (tellsTidily_readingError (hsource hfails))
    · dsimp only
      split
      · exact (tellsTidily_of_plain hafter).checkBaseline
      · exact tellsTidily_of_plain hafter

end Description

theorem Header.tellsTidily_of_read (hsource : source.FailsTidily) {finding : Finding}
    (h : Header.read source = .error finding) : (ImageAudit.Finding.tiff finding).TellsTidily := by
  rw [Header.read] at h
  split at h
  · next hfails =>
    obtain rfl := Except.error.inj h
    exact tellsTidily_cannotReadHeader (hsource hfails)
  · exact tellsTidily_of_plainWith (plain_of_ofBytes h)

theorem Decoder.tellsTidily_process (d : Decoder) (hsource : source.FailsTidily) :
    (d.process source).description.TellsTidily := by
  have hempty : d.reset.description.survey.Plain Jpeg.Finding.Tidy := List.forall_mem_nil _
  rw [description_process]
  cases hheader : Header.read source with
  | error finding =>
    exact (Description.tellsTidily_of_plain hempty).report
      (Header.tellsTidily_of_read hsource hheader)
  | ok header =>
    dsimp only
    split
    · exact Description.tellsTidily_of_plain hempty
    · exact Description.tellsTidily_check (d := { d.reset.description with header := some header })
        hempty _ _ hsource

end Tiff
end ImageAudit
