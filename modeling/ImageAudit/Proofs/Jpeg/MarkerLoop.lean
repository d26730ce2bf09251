import ImageAudit.Jpeg.Decoder
import ImageAudit.Proofs.Jpeg.MarkerStream
import ImageAudit.Proofs.Jpeg.WellFormed

/-! The states of the marker loop. Whenever the loop goes on nothing has been found yet, and what is
kept of the stream is well-formed; so the decoding of scan data meets with no defect of the frame,
and all findings of a run come from the one step that ends it. -/
namespace ImageAudit.Jpeg

namespace Frame

variable {f : Frame}

private theorem exists_mapM {components : List ScanComponent}
    (h : ∀ c ∈ components, (f.find? c.id).isSome = true) :
    ∃ found, (components.mapM fun c => f.find? c.id) = some found := by
  induction components with
  | nil => exact ⟨[], rfl⟩
  | cons c rest ih =>
    rw [List.forall_mem_cons] at h
    obtain ⟨d, hd⟩ := Option.isSome_iff_exists.mp h.1
    obtain ⟨found, hfound⟩ := ih h.2
    refine ⟨d :: found, ?_⟩
    rw [List.mapM_cons, hd, hfound]
    rfl

theorem WellFormed.isSome_find? (h : f.WellFormed) {scan : Scan} (hscan : scan ∈ f.scans) :
    ∀ c ∈ scan.components, (f.find? c.id).isSome = true :=
  fun c hc => isSome_find?_iff.mpr ((h.scan scan hscan).defined c hc)

/-- A scan of a well-formed frame has a layout unless the height is not known yet. -/
theorem WellFormed.ofScan?_eq_none_iff (h : f.WellFormed) {scan : Scan} (hscan : scan ∈ f.scans) :
    Layout.ofScan? f scan.components = none ↔ f.height = 0 := by
  have hwidth := h.width_pos
  have hfound := h.isSome_find? hscan
  unfold Layout.ofScan?
  constructor
  · intro hnone
    by_contra hheight
    rw [if_neg (by omega)] at hnone
    split at hnone
    · next single hsingle =>
      rw [hsingle, List.forall_mem_singleton] at hfound
      obtain ⟨c, hc⟩ := Option.isSome_iff_exists.mp hfound
      rw [hc] at hnone
      cases hnone
    · obtain ⟨found, hall⟩ := exists_mapM hfound
      rw [hall] at hnone
      cases hnone
  · intro hheight
    rw [if_pos (.inr hheight)]

end Frame

namespace Stream

/-- Nothing has been found, and what is kept has no defect. -/
structure Faultless (s : Stream) : Prop where
  clean : s.findings = []
  wellFormed : s.WellFormed

variable {s : Stream} {m : Marker}

/-- A scan header that is taken in without a finding leaves its scan as the last one of the
frame. -/
theorem WellFormed.exists_last (h : s.WellFormed) (hid : m.id = MarkerId.startOfScan)
    (hclean : (s.take m).1.findings = []) :
    ∃ f scan, (s.take m).1.frame = some f ∧ f.scans.getLast? = some scan ∧ f.WellFormed := by
  have htake : s.take m = s.takeScan m := by
    unfold Stream.take
    rw [hid, if_neg (by decide), if_pos (by decide)]
  have hwell := (h.take hclean).frame
  rw [htake] at hclean hwell ⊢
  obtain ⟨f, scan, _, _, heq⟩ := exists_takeScan_eq hclean
  rw [heq] at hwell ⊢
  exact ⟨_, scan, rfl, by simp, hwell _ rfl⟩

theorem WellFormed.checkScanData (h : s.WellFormed) (data : ByteArray) (offset : Nat) :
    (s.checkScanData data offset).WellFormed := by
  unfold Stream.checkScanData
  split
  · split
    · exact ⟨h.frame, h.huffman, h.quantization⟩
    · exact h
  · exact h

end Stream

/-- A step that goes on leaves a faultless stream, and one that ends without a finding a well-formed
one. -/
def Outcome.Faultless : Outcome → Prop
  | .advance t => t.stream.Faultless
  | .finish s => s.findings = [] → s.WellFormed

namespace Scanner

variable {source : Source} {s t : Scanner}

theorem faultless_report (stream : Stream) (finding : Finding) :
    (Outcome.finish (stream.report finding)).Faultless := by
  intro hclean
  simp [Stream.report] at hclean

theorem faultless_leave {stream : Stream} (h : stream.findings = [] → stream.WellFormed)
    (m : Marker) (next : Nat) : (leave source stream m next).Faultless := by
  simp only [leave]
  split
  · next hdirty =>
    intro hclean
    change stream.findings = [] at hclean
    simp [Stream.isClean, hclean] at hdirty
  next hclean =>
  have hempty : stream.findings = [] := by simpa [Stream.isClean] using hclean
  have hwell := h hempty
  split
  · split
    · exact faultless_report _ _
    · exact fun _ => ⟨hwell.frame, hwell.huffman, hwell.quantization⟩
  · exact ⟨hempty, hwell.frame, hwell.huffman, hwell.quantization⟩

theorem faultless_enter {stream : Stream} (h : stream.WellFormed) (m : Marker) (next : Nat) :
    (enter source stream m next).Faultless := by
  have htake := h.take (m := m)
  simp only [enter]
  generalize stream.take m = taken at htake ⊢
  split
  · next hscan =>
    have hwell := htake (by simpa [Stream.isClean] using hscan.2)
    rw [takeScanData]
    cases EntropyData.read source next with
    | error e => exact faultless_report _ _
    | ok data => exact faultless_leave (fun _ => hwell.checkScanData data next) _ _
  · exact faultless_leave htake _ _

/-- One step keeps a stream faultless as long as it finds nothing. -/
theorem faultless_step (h : s.stream.Faultless) : (step source s).Faultless := by
  unfold step
  split
  · exact faultless_report _ _
  · exact h
  · exact faultless_enter h.wellFormed _ _

inductive Reaches (source : Source) : Scanner → Scanner → Prop where
  | refl (s : Scanner) : Reaches source s s
  | next {s t u : Scanner} : step source s = .advance t → Reaches source t u → Reaches source s u

theorem Reaches.faultless (h : Reaches source s t) (hs : s.stream.Faultless) :
    t.stream.Faultless := by
  induction h with
  | refl => exact hs
  | next hstep _ ih =>
    have hnext : (step source _).Faultless := faultless_step hs
    rw [hstep] at hnext
    exact ih hnext

/-- The loop ends, with the step that leads to its result. -/
theorem exists_last_step (source : Source) (s : Scanner) :
    ∃ t, Reaches source s t ∧ step source t = .finish (run source s) := by
  fun_induction run source s with
  | case1 s stream hstep => exact ⟨s, .refl s, hstep⟩
  | case2 s next hstep _ ih =>
    obtain ⟨t, hreach, hlast⟩ := ih
    exact ⟨t, .next hstep hreach, hlast⟩

end Scanner

namespace Stream

/-- The first marker is read, or there is one finding. -/
theorem identify_empty_cases (embedded : Bool) (source : Source) :
    (((empty embedded).identify source).identified = true ∧
      ((empty embedded).identify source).Faultless) ∨
    (((empty embedded).identify source).identified = false ∧
      ∃ finding, (empty embedded).identify source = (empty embedded).report finding) := by
  have hwell := wellFormed_empty embedded
  unfold identify
  split
  · exact .inr ⟨rfl, _, rfl⟩
  · dsimp only
    split
    · exact .inr ⟨rfl, _, rfl⟩
    · split
      · exact .inr ⟨rfl, _, rfl⟩
      · exact .inl ⟨rfl, rfl, hwell.frame, hwell.huffman, hwell.quantization⟩

end Stream

/-- In the step from `s` the data of the last scan of `stream` are checked. -/
def Scanner.ChecksData (source : Source) (s : Scanner) (stream : Stream) : Prop :=
  ∃ m next, Marker.readAt source s.offset s.number = .ok (.marker m next) ∧
    m.id = MarkerId.startOfScan ∧ stream = (s.stream.take m).1 ∧ stream.findings = []

namespace Decoder

def start (d : Decoder) (source : Source) : Scanner := ⟨markerSize, 2, (d.identify source).stream⟩

def Loops (d : Decoder) (source : Source) : Prop :=
  (d.identify source).stream.identified = true ∧ d.settings.mode = .check

variable {d : Decoder} {source : Source}

theorem Loops.stream_process (h : d.Loops source) :
    (d.process source).stream = Scanner.run source (d.start source) := by
  have hidentified : (d.identify source).stream.identified = true := h.1
  have hmode : (d.identify source).settings.isIdentify = false := by
    change (d.settings.mode == .identify) = false
    rw [h.2]
    rfl
  simp only [process, hidentified, hmode]
  rfl

theorem process_of_not_loops (h : ¬ d.Loops source) : d.process source = d.identify source := by
  simp only [process]
  apply if_pos
  rw [Bool.or_eq_true, Bool.not_eq_true']
  by_contra hnot
  rw [not_or, Bool.not_eq_false] at hnot
  refine h ⟨hnot.1, ?_⟩
  have hmode : ¬ (d.settings.mode == .identify) = true := hnot.2
  cases hd : d.settings.mode with
  | identify => simp [hd] at hmode
  | check => rfl

/-- Whenever the marker loop goes on nothing has been found, and frame, scans and tables are
well-formed, as they are at the end of a run without findings. So wherever scan data are checked,
all components of the scan are found and the scan has a layout unless the height is zero. All
findings come from the last step, or from reading the first marker where there is no other step. -/
theorem loop_wellFormed (d : Decoder) (source : Source) :
    (d.Loops source → ∀ s, Scanner.Reaches source (d.start source) s →
      s.stream.findings = [] ∧ s.stream.WellFormed ∧
      ∀ stream, s.ChecksData source stream → stream.WellFormed ∧
        ∃ f scan, stream.frame = some f ∧ f.scans.getLast? = some scan ∧
          (∀ c ∈ scan.components, (f.find? c.id).isSome = true) ∧
          (Layout.ofScan? f scan.components = none ↔ f.height = 0)) ∧
    ((d.process source).stream.findings = [] → (d.process source).stream.WellFormed) ∧
    (d.Loops source → ∃ s, Scanner.Reaches source (d.start source) s ∧ s.stream.findings = [] ∧
      Scanner.step source s = .finish (d.process source).stream) ∧
    (¬ d.Loops source → d.process source = d.identify source ∧
      (d.process source).stream.findings.length ≤ 1) := by
  have hstart : d.Loops source → (d.start source).stream.Faultless := by
    intro hloops
    have hidentified : ((Stream.empty d.embedded).identify source).identified = true := hloops.1
    rcases Stream.identify_empty_cases d.embedded source with ⟨_, hfaultless⟩ | ⟨hnot, _⟩
    · exact hfaultless
    · rw [hnot] at hidentified
      cases hidentified
  have hlast : d.Loops source → ∃ s, Scanner.Reaches source (d.start source) s ∧
      s.stream.Faultless ∧ Scanner.step source s = .finish (d.process source).stream := by
    intro hloops
    obtain ⟨s, hreach, hstep⟩ := Scanner.exists_last_step source (d.start source)
    rw [← hloops.stream_process] at hstep
    exact ⟨s, hreach, hreach.faultless (hstart hloops), hstep⟩
  refine ⟨?_, ?_, ?_, ?_⟩
  · intro hloops s hreach
    obtain ⟨hclean, hwell⟩ := hreach.faultless (hstart hloops)
    refine ⟨hclean, hwell, ?_⟩
    rintro _ ⟨m, next, _, hid, rfl, htaken⟩
    obtain ⟨f, scan, hframe, hscan, hf⟩ := hwell.exists_last hid htaken
    have hmem := List.mem_of_getLast? hscan
    exact ⟨hwell.take htaken, f, scan, hframe, hscan, hf.isSome_find? hmem,
      hf.ofScan?_eq_none_iff hmem⟩
  · intro hclean
    by_cases hloops : d.Loops source
    · obtain ⟨s, _, hfaultless, hstep⟩ := hlast hloops
      have hend : (Scanner.step source s).Faultless := Scanner.faultless_step hfaultless
      rw [hstep] at hend
      exact hend hclean
    · rw [process_of_not_loops hloops] at hclean ⊢
      rcases Stream.identify_empty_cases d.embedded source with ⟨_, hfaultless⟩ | ⟨_, finding, heq⟩
      · exact hfaultless.wellFormed
      · rw [show (d.identify source).stream = _ from heq] at hclean
        simp [Stream.report] at hclean
  · intro hloops
    obtain ⟨s, hreach, hfaultless, hstep⟩ := hlast hloops
    exact ⟨s, hreach, hfaultless.clean, hstep⟩
  · intro hloops
    refine ⟨process_of_not_loops hloops, ?_⟩
    rw [process_of_not_loops hloops]
    rcases Stream.identify_empty_cases d.embedded source with ⟨_, hfaultless⟩ | ⟨_, finding, heq⟩
    · rw [show (d.identify source).stream.findings = [] from hfaultless.clean]
      exact Nat.zero_le 1
    · rw [show (d.identify source).stream = _ from heq]
      exact Nat.le_refl 1

def grayBlock : ByteArray := ⟨#[0xFF, 0xD8,
  0xFF, 0xC0, 0, 11, 8, 0, 8, 0, 8, 1, 1, 0x11, 0,
  0xFF, 0xC4, 0, 38,
    0x00, 1, 0, 0, 0, 0, 0, 0, 0, 0, 0, 0, 0, 0, 0, 0, 0, 0,
    0x10, 1, 0, 0, 0, 0, 0, 0, 0, 0, 0, 0, 0, 0, 0, 0, 0, 0,
  0xFF, 0xDA, 0, 8, 1, 1, 0x00, 0, 63, 0, 0x3F,
  0xFF, 0xD9]⟩

theorem loop_wellFormed_grayBlock :
    let d := Decoder.new {} false
    let source := Source.ofBytes "gray" grayBlock
    d.Loops source ∧ (d.process source).stream.findings = [] ∧
      (d.process source).stream.numScans = 1 ∧ (d.process source).stream.WellFormed :=
  ⟨⟨by decide +kernel, rfl⟩, by decide +kernel, by decide +kernel,
    (loop_wellFormed _ _).2.1 (by decide +kernel)⟩

end Decoder
end ImageAudit.Jpeg
