import ImageAudit.Proofs.Jpeg.CutData
import ImageAudit.Proofs.Jpeg.FillBytes

/-! Streams with fill bytes put in. In front of every marker that is recorded they change nothing
but the places behind them, and in front of a restart marker inside the data of a scan they cut the
data short. -/
namespace ImageAudit.Jpeg

variable {source filled : Source} {content : List UInt8} {count : Nat}

/-- To a stream between scans a restart marker is like any marker that it only records. -/
private theorem MarkerId.plain_of_isRestart {id : Nat} (h : isRestart id = true) :
    stuffing < id ∧ id < fill ∧ id ≠ startOfImage ∧ id ≠ endOfImage ∧
      isStartOfFrame id = false ∧ id ≠ startOfScan ∧ id ≠ defineHuffman ∧
      id ≠ defineQuantization ∧ id ≠ defineRestart := by
  have hrange : 0xFFD0 ≤ id ∧ id ≤ 0xFFD7 := by
    rw [isRestart, Bool.and_eq_true, decide_eq_true_eq, decide_eq_true_eq] at h
    exact h
  have hframe : isStartOfFrame id = false := by
    simp only [isStartOfFrame, Bool.and_eq_false_iff, decide_eq_false_iff_not]
    omega
  simp only [stuffing, fill, startOfImage, endOfImage, startOfScan, defineHuffman,
    defineQuantization, defineRestart]
  exact ⟨by omega, by omega, by omega, by omega, hframe, by omega, by omega, by omega, by omega⟩

def restartMarker (second : UInt8) (h : MarkerId.isRestart (0xFF00 + second.toNat) = true)
    (fill : Nat) : PlainMarker where
  fill
  id := 0xFF00 + second.toNat
  payload := []
  id_gt := (MarkerId.plain_of_isRestart h).1
  id_lt := (MarkerId.plain_of_isRestart h).2.1
  isPlain := (MarkerId.plain_of_isRestart h).2.2
  fits := Nat.zero_le _

theorem bytes_restartMarker {second : UInt8}
    (h : MarkerId.isRestart (0xFF00 + second.toNat) = true) (fill : Nat) :
    (restartMarker second h fill).bytes = List.replicate fill 0xFF ++ [0xFF, second] := by
  have hlength : MarkerId.hasLength (restartMarker second h fill).id = false := by
    simp [restartMarker, MarkerId.hasLength, h]
  have hlow : UInt8.ofNat (0xFF00 + second.toNat) = second := by
    apply UInt8.toNat_inj.mp
    have := second.toNat_lt
    rw [UInt8.toNat_ofNat']
    omega
  have hhigh : (0xFF00 + second.toNat) / 256 = 0xFF := by
    have := second.toNat_lt
    omega
  have hid : ByteOrder.bigEndian.encode markerSize (restartMarker second h fill).id =
      [0xFF, second] := by
    simp [restartMarker, ByteOrder.encode, markerSize, ByteOrder.toDigits, hhigh, hlow]
  rw [PlainMarker.bytes, hid, hlength]
  rfl

namespace Scanner

variable {s : Scanner} {m : Marker} {next : Nat}

/-- A restart marker in the data of a scan stands where the data have it. -/
theorem standsAt_restart (h : source.Holds content)
    (hread : Marker.readAt source s.offset s.number = .ok (.marker m next)) {data : ByteArray}
    (hdata : EntropyData.read source next = .ok data) {before after : List UInt8} {second : UInt8}
    (hbytes : data.data.toList = before ++ 0xFF :: second :: after) :
    StandsAt [0xFF, second] content (next + before.length) := by
  obtain ⟨_, _, _, hoffset, _, hmarker, rfl⟩ := (Marker.readAt_marker_iff h).mp hread
  have hall := EntropyData.standsAt_of_read h hdata hmarker.le
  rw [hbytes] at hall
  have hsplit : StandsAt ([0xFF, second] ++ after) content
      (s.offset + m.bytes.length + before.length) := (StandsAt.append_iff.mp hall).2
  exact (StandsAt.append_iff.mp hsplit).1

/-- Where no data of a scan are read a restart marker behind fill bytes is recorded. -/
theorem exists_mem_run_restart {place number : Nat} {stream : Stream} {second : UInt8}
    (hstands : StandsAt [0xFF, second] content place)
    (hrestart : MarkerId.isRestart (0xFF00 + second.toNat) = true)
    (hfilled : filled.Holds (fillAt content place count)) (hclean : stream.findings = []) :
    ∃ r ∈ (run filled ⟨place, number, stream⟩).markers,
      r.id = 0xFF00 + second.toNat ∧ r.offset = place + count := by
  have hbytes : StandsAt (restartMarker second hrestart count).bytes (fillAt content place count)
      place := by
    rw [bytes_restartMarker]
    exact hstands.fillAt_fill
  rw [run_plain hfilled _ hclean hbytes]
  exact ⟨_, mem_markers_of_run Array.mem_push_self, PlainMarker.id_marker _ _ _,
    PlainMarker.offset_marker _ _ _⟩

/-- Fill bytes in front of a restart marker cut the data of the scan short. Then the restart marker
is missing, or it was not needed and is taken for a marker behind the data. -/
theorem run_fillAt_data (h : source.Holds content)
    (hread : Marker.readAt source s.offset s.number = .ok (.marker m next))
    (hid : m.id = MarkerId.startOfScan) (hclean : (run source s).findings = [])
    {data : ByteArray} (hdata : EntropyData.read source next = .ok data)
    {before after : List UInt8} {second : UInt8}
    (hbytes : data.data.toList = before ++ 0xFF :: second :: after)
    (hrestart : MarkerId.isRestart (0xFF00 + second.toNat) = true) (hcount : 0 < count)
    (hfilled : filled.Holds (fillAt content (next + before.length) count)) :
    (run filled s).findings = [.missingRestart (second.toNat - 0xD0) (next + before.length)] ∨
      ∃ r ∈ (run filled s).markers,
        r.id = 0xFF00 + second.toNat ∧ r.offset = next + before.length + count := by
  have hstands := standsAt_restart h hread hdata hbytes
  have hfirst := hstands.first
  have hlt := Marker.lt_of_readAt hread
  have hsame := Marker.readAt_fillAt h hfilled hfirst hread (by omega) (by rintro _ _ ⟨⟩; omega)
  have hcut := EntropyData.read_fillAt h hfilled hfirst hcount (by omega) hdata
  rw [hbytes, Nat.add_sub_cancel_left, List.take_left] at hcut
  have hquiet := quiet_of_run hclean
  rw [step, hread] at hquiet
  have htaken := findings_of_quiet_enter hquiet
  dsimp only at hquiet
  rw [enter_scan hid htaken hdata] at hquiet
  have hstep : step filled s =
      leave filled ((s.stream.take m).1.checkScanData ⟨before.toArray⟩ next)
        (s.stream.take m).2 (next + before.length) := by
    rw [step, hsame]
    exact enter_scan hid htaken hcut
  have hsecond : second ≠ 0 := by
    rintro rfl
    cases hrestart
  obtain hkept | hmissing :=
    Stream.checkScanData_cut hsecond hbytes htaken (findings_of_quiet hquiet)
  · refine .inr ?_
    obtain ⟨⟨index, hmarker⟩, _, _⟩ := s.stream.takes_take m
    have hend : (s.stream.take m).2.id ≠ MarkerId.endOfImage := by
      rw [hmarker, show (m.moveTo index).id = m.id from rfl, hid]
      decide
    rw [leave_of_clean hkept, if_neg hend] at hstep
    rw [run_advance hstep]
    exact exists_mem_run_restart hstands hrestart hfilled hkept
  · refine .inl ?_
    rw [leave_of_findings (by rw [hmissing]; exact List.cons_ne_nil _ _)] at hstep
    rw [run_finish hstep]
    exact hmissing

/-- No marker is recorded inside the data of a scan. -/
theorem offset_ne_of_mem_run (h : source.Holds content)
    (hread : Marker.readAt source s.offset s.number = .ok (.marker m next))
    (hid : m.id = MarkerId.startOfScan) (hbefore : ∀ x ∈ s.stream.markers, x.offset < s.offset)
    (hclean : (run source s).findings = []) {data : ByteArray}
    (hdata : EntropyData.read source next = .ok data) {place : Nat} (hle : next ≤ place)
    (hlt : place < next + data.size) : ∀ x ∈ (run source s).markers, x.offset ≠ place := by
  intro x hx
  have hnext := Marker.lt_of_readAt hread
  have hoffset : m.offset = s.offset := ((Marker.readAt_marker_iff h).mp hread).2.2.2.1
  have hleads := leads_enter source s.stream m next
  rw [show enter source s.stream m next = step source s by rw [step, hread]] at hleads
  generalize hstep : step source s = outcome at hleads
  cases hleads with
  | finding hne =>
    rw [run_finish hstep] at hclean
    exact absurd hclean hne
  | last hp hend =>
    obtain ⟨index, hmarker⟩ := hp.marker
    rw [hmarker, show (m.moveTo index).id = m.id from rfl, hid] at hend
    cases hend
  | @more p stream hp =>
    obtain ⟨index, hmarker⟩ := hp.marker
    have hpdata := hp.data
    rw [if_pos hid] at hpdata
    obtain ⟨found, hfound, hlist⟩ := hpdata
    obtain rfl := Except.ok.inj (hdata.symm.trans hfound)
    have hlength : p.data.length = data.size := by
      rw [← hlist]
      rfl
    rw [run_advance hstep] at hx
    by_cases hold : x ∈ stream.markers
    · rw [hp.markers, hmarker] at hold
      rcases Array.mem_push.mp hold with hearlier | rfl
      · have := hbefore x hearlier
        omega
      · have hsame : (m.moveTo index).offset = m.offset := rfl
        omega
    · obtain ⟨u, m', stop, index', hreach, hread', rfl⟩ := exists_reaches_of_mem hx hold
      have hplace := hreach.offset_le
      have hsame : (m'.moveTo index').offset = m'.offset := rfl
      have hoffset' : m'.offset = u.offset := ((Marker.readAt_marker_iff h).mp hread').2.2.2.1
      dsimp only at hplace
      omega

end Scanner

/-- A restart marker with the second byte `second` stands at `place` in the data behind the scan
header `m`. -/
structure Marker.HoldsRestart (m : Marker) (source : Source) (place : Nat) (second : UInt8) :
    Prop where
  scan : m.id = MarkerId.startOfScan
  restart : MarkerId.isRestart (0xFF00 + second.toNat) = true
  data : ∃ data before after, EntropyData.read source (m.offset + m.bytes.length) = .ok data ∧
    data.data.toList = before ++ 0xFF :: second :: after ∧
    place = m.offset + m.bytes.length + before.length

namespace Decoder

variable {d : Decoder} {m : Marker}

def behindStart (embedded : Bool) : Scanner :=
  ⟨markerSize, 2, { Stream.empty embedded with identified := true, markers := #[startMarker] }⟩

private theorem stream_process_behindStart (hmode : d.settings.mode = .check)
    (h : source.Holds content) (hclean : (d.process source).stream.findings = []) :
    (d.process source).stream = Scanner.run source (behindStart d.embedded) :=
  stream_process hmode h (standsAt_of_findings h hclean)

private theorem stream_process_fillAt (hmode : d.settings.mode = .check) (h : source.Holds content)
    (hclean : (d.process source).stream.findings = []) {place : Nat}
    (hfilled : filled.Holds (fillAt content place count)) (hplace : place ≤ content.length)
    (hle : markerSize ≤ place) :
    (d.process filled).stream = Scanner.run filled (behindStart d.embedded) :=
  stream_process hmode hfilled ((standsAt_of_findings h hclean).fillAt_before hplace (by
    rw [bytes_startMarker]
    exact hle))

/-- Fill bytes in front of a marker of a stream without findings change nothing but the places
behind them. In front of a restart marker inside the data of a scan they never go unnoticed: the
restart marker is missing, or it was not needed and is recorded as a marker behind the data. -/
theorem process_fillAt (hmode : d.settings.mode = .check) (h : source.Holds content)
    (hclean : (d.process source).stream.findings = [])
    (hm : m ∈ (d.process source).stream.markers) (hstart : m.id ≠ MarkerId.startOfImage) :
    (∀ count filled, filled.Holds (fillAt content m.offset count) →
      (d.process filled).stream.findings = [] ∧
      (d.process filled).stream = (d.process source).stream.shiftFrom m.offset count) ∧
    ∀ place second, m.HoldsRestart source place second → ∀ count filled, 0 < count →
      filled.Holds (fillAt content place count) →
      (d.process filled).stream ≠ (d.process source).stream.shiftFrom place count ∧
      ((d.process filled).stream.findings = [.missingRestart (second.toNat - 0xD0) place] ∨
        ∃ r ∈ (d.process filled).stream.markers,
          r.id = 0xFF00 + second.toNat ∧ r.offset = place + count) := by
  have hsource := stream_process_behindStart hmode h hclean
  have hnew : m ∉ (behindStart d.embedded).stream.markers := by
    intro hfirst
    obtain rfl := Array.mem_singleton.mp hfirst
    exact hstart rfl
  have hbefore : ∀ x ∈ (behindStart d.embedded).stream.markers,
      x.offset < (behindStart d.embedded).offset := by
    intro x hx
    obtain rfl := Array.mem_singleton.mp hx
    exact Nat.zero_lt_two
  have hrun := hclean
  rw [hsource] at hm hrun
  obtain ⟨t, m', next, index, hreach, hread, rfl⟩ := Scanner.exists_reaches_of_mem hm hnew
  obtain ⟨_, _, _, hoffset, _, hbytes, hnext⟩ := (Marker.readAt_marker_iff h).mp hread
  have hplace : (m'.moveTo index).offset = t.offset := hoffset
  have hle : markerSize ≤ t.offset := hreach.offset_le
  constructor
  · intro count filled hfilled
    have hshift : (d.process filled).stream =
        (d.process source).stream.shiftFrom (m'.moveTo index).offset count := by
      rw [hsource, stream_process_fillAt hmode h hclean hfilled (hplace ▸ hbytes.1) (hplace ▸ hle)]
      exact Scanner.run_fillAt h hbefore hrun hm hnew hfilled
    exact ⟨hshift ▸ hclean, hshift⟩
  · rintro place second ⟨hid, hrestart, data, before, after, hdata, hlist, rfl⟩ count filled hcount
      hfilled
    rw [Marker.bytes_moveTo, hplace, ← hnext] at hdata hfilled ⊢
    have hlt := Marker.lt_of_readAt hread
    have hstands := Scanner.standsAt_restart h hread hdata hlist
    have hsize : data.size = before.length + (after.length + 2) := by
      rw [show data.size = data.data.toList.length from rfl, hlist, List.length_append]
      rfl
    rw [hreach.run_eq] at hrun
    rw [hsource, stream_process_fillAt hmode h hclean hfilled hstands.1 (by omega), hreach.run_eq,
      (hreach.fillAt h hfilled hstands.first (by omega)).run_eq]
    have hcut := Scanner.run_fillAt_data h hread hid hrun hdata hlist hrestart hcount hfilled
    have hfree := Scanner.offset_ne_of_mem_run h hread hid (hreach.lt_offset h hbefore) hrun hdata
      (Nat.le_add_right next before.length) (by omega)
    refine ⟨fun heq => ?_, hcut⟩
    rw [heq] at hcut
    rcases hcut with hmissing | ⟨r, hr, _, hroffset⟩
    · cases hrun.symm.trans hmissing
    · exact Stream.offset_ne_of_mem_shiftFrom hfree hr hroffset

def grayIntervals : ByteArray := ⟨#[0xFF, 0xD8,
  0xFF, 0xC0, 0, 11, 8, 0, 8, 0, 16, 1, 1, 0x11, 0,
  0xFF, 0xC4, 0, 38,
    0x00, 1, 0, 0, 0, 0, 0, 0, 0, 0, 0, 0, 0, 0, 0, 0, 0, 0,
    0x10, 1, 0, 0, 0, 0, 0, 0, 0, 0, 0, 0, 0, 0, 0, 0, 0, 0,
  0xFF, 0xDD, 0, 4, 0, 1,
  0xFF, 0xDA, 0, 8, 1, 1, 0x00, 0, 63, 0, 0x3F, 0xFF, 0xD0, 0x3F,
  0xFF, 0xD9]⟩

def filledIntervals (place count : Nat) : ByteArray :=
  ⟨(fillAt grayIntervals.data.toList place count).toArray⟩

theorem process_fillAt_grayIntervals :
    let d := Decoder.new {} false
    let source := Source.ofBytes "gray" grayIntervals
    (d.process source).stream.findings = [] ∧ ∃ m ∈ (d.process source).stream.markers,
      m.id ≠ MarkerId.startOfImage ∧ m.offset = 61 ∧ m.HoldsRestart source 72 0xD0 ∧
      (d.process (.ofBytes "gray" (filledIntervals 61 3))).stream =
        (d.process source).stream.shiftFrom 61 3 ∧
      (d.process (.ofBytes "gray" (filledIntervals 72 1))).stream ≠
        (d.process source).stream.shiftFrom 72 1 := by
  intro d source
  have hclean : (d.process source).stream.findings = [] := by decide +kernel
  have h : source.Holds grayIntervals.data.toList := .ofBytes "gray" (by decide)
  have hfilled : ∀ place count, (filledIntervals place count).size ≤ maxWord →
      (Source.ofBytes "gray" (filledIntervals place count)).Holds
        (fillAt grayIntervals.data.toList place count) := fun place count => .ofBytes "gray"
  obtain ⟨m, hm, hid, hoffset, hlength⟩ : ∃ m ∈ (d.process source).stream.markers,
      m.id = MarkerId.startOfScan ∧ m.offset = 61 ∧ m.bytes.length = 10 := by decide +kernel
  have hrestart : m.HoldsRestart source 72 0xD0 := by
    refine ⟨hid, by decide, _, [0x3F], [0x3F], EntropyData.read_eq h _, ?_, ?_⟩
    · rw [hoffset, hlength]
      decide
    · rw [hoffset, hlength]
      rfl
  have hstart : m.id ≠ MarkerId.startOfImage := by rw [hid]; decide
  obtain ⟨hmarker, hcut⟩ := process_fillAt rfl h hclean hm hstart
  rw [hoffset] at hmarker
  exact ⟨hclean, m, hm, hstart, hoffset, hrestart,
    (hmarker 3 _ (hfilled 61 3 (by decide))).2,
    (hcut 72 0xD0 hrestart 1 _ Nat.one_pos (hfilled 72 1 (by decide))).1⟩

/-- A fill byte in front of the restart marker is all that keeps the second block from being
decoded. -/
theorem missingRestart_filledIntervals :
    let d := Decoder.new {} false
    (d.process (.ofBytes "gray" grayIntervals)).stream.findings = [] ∧
      (d.process (.ofBytes "gray" (filledIntervals 72 1))).stream.findings =
        [.missingRestart 0 72] := by
  decide +kernel

end Decoder
end ImageAudit.Jpeg
