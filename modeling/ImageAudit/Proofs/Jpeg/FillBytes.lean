import ImageAudit.Proofs.Jpeg.MarkerRoundTrip
import ImageAudit.Proofs.Jpeg.RecordedMarkers
import ImageAudit.Proofs.Jpeg.Shift
import ImageAudit.Proofs.Jpeg.TrailingData

/-! Fill bytes put in front of a marker. Up to the marker nothing depends on them, the marker loop
passes them, and behind them everything is read as before but from further behind. -/
namespace ImageAudit

/-- The bytes with `count` fill bytes put in at `place`. -/
def fillAt (content : List UInt8) (place count : Nat) : List UInt8 :=
  content.take place ++ (List.replicate count 0xFF ++ content.drop place)

variable {content bytes : List UInt8} {place count offset : Nat}

theorem fillAt_zero (content : List UInt8) (place : Nat) : fillAt content place 0 = content :=
  List.take_append_drop place content

theorem length_fillAt (content : List UInt8) (place count : Nat) :
    (fillAt content place count).length = content.length + count := by
  simp only [fillAt, List.length_append, List.length_take, List.length_replicate, List.length_drop]
  omega

/-- Behind the fill bytes the same bytes follow. -/
theorem drop_fillAt (hplace : place ≤ content.length) (h : place ≤ offset) :
    (fillAt content place count).drop (offset + count) = content.drop offset := by
  obtain ⟨more, rfl⟩ := Nat.exists_eq_add_of_le h
  have hbefore : (content.take place).length = place := List.length_take_of_le hplace
  have hfills : (List.replicate count (0xFF : UInt8)).length = count := List.length_replicate
  have hsum : place + more + count = place + (count + more) := by omega
  rw [fillAt, hsum, ← List.drop_drop, List.drop_left' hbefore, ← List.drop_drop,
    List.drop_left' hfills, List.drop_drop]

/-- In front of the fill bytes the same bytes stand. -/
theorem drop_fillAt_before (hplace : place ≤ content.length) (h : offset ≤ place) :
    ∃ before, offset + before.length = place ∧
      content.drop offset = before ++ content.drop place ∧
      (fillAt content place count).drop offset =
        before ++ (List.replicate count 0xFF ++ content.drop place) := by
  have hbefore : (content.take place).length = place := List.length_take_of_le hplace
  refine ⟨(content.take place).drop offset, ?_, ?_, ?_⟩
  · rw [List.length_drop, hbefore]
    omega
  · rw [← List.drop_append_of_le_length (by omega), List.take_append_drop]
  · rw [fillAt, List.drop_append_of_le_length (by omega)]

namespace StandsAt

theorem first {b : UInt8} (h : StandsAt (b :: bytes) content offset) :
    StandsAt [b] content offset :=
  (append_iff.mp (show StandsAt ([b] ++ bytes) content offset from h)).1

theorem fillAt_iff (hplace : place ≤ content.length) (h : place ≤ offset) :
    StandsAt bytes (fillAt content place count) (offset + count) ↔
      StandsAt bytes content offset := by
  rw [StandsAt, StandsAt, length_fillAt, drop_fillAt hplace h, Nat.add_le_add_iff_right]

theorem fillAt_before (h : StandsAt bytes content offset) (hplace : place ≤ content.length)
    (hend : offset + bytes.length ≤ place) :
    StandsAt bytes (fillAt content place count) offset := by
  obtain ⟨before, hlength, hdrop, hfilled⟩ :=
    @drop_fillAt_before _ _ count _ hplace (show offset ≤ place by omega)
  have hbytes := h.2
  rw [hdrop] at hbytes
  refine ⟨by rw [length_fillAt]; have := h.1; omega, ?_⟩
  rw [hfilled]
  exact (List.prefix_of_prefix_length_le hbytes (List.prefix_append _ _) (by omega)).trans
    (List.prefix_append _ _)

/-- What stood at the place stands behind the fill bytes. -/
theorem fillAt_fill (h : StandsAt bytes content place) :
    StandsAt (List.replicate count 0xFF ++ bytes) (fillAt content place count) place := by
  obtain ⟨rest, hrest⟩ := h.2
  have hbefore : (content.take place).length = place := List.length_take_of_le h.1
  refine ⟨by rw [length_fillAt]; have := h.1; omega, ?_⟩
  rw [fillAt, List.drop_left' hbefore, ← hrest]
  exact (List.prefix_append_right_inj _).mpr (List.prefix_append _ _)

/-- Where an `FF` follows them the fill bytes do not change that one stands at the place. -/
theorem first_fillAt (h : StandsAt [0xFF] content place) :
    StandsAt [0xFF] (fillAt content place count) place := by
  have hfill := @fillAt_fill _ _ _ count h
  rw [← List.replicate_succ', List.replicate_succ] at hfill
  exact hfill.first

end StandsAt

namespace Jpeg

variable {source filled : Source}

namespace EntropyData

/-- Data that meet with `FF` and a byte that ends them reach up to there at most. -/
theorem extent_fill {before after more : List UInt8} (hends : endsAt (0xFF :: more) = true) :
    extent (before ++ 0xFF :: more) = (extent (before ++ 0xFF :: after)).take before.length := by
  induction before with
  | nil => exact extent_of_endsAt hends
  | cons b before ih =>
    have hsame : endsAt (b :: (before ++ 0xFF :: more)) =
        endsAt (b :: (before ++ 0xFF :: after)) := by
      cases before <;> rfl
    simp only [List.cons_append, extent, hsame]
    split
    · rfl
    · exact congrArg (b :: ·) ih

/-- With fill bytes put in no data reach beyond their place. -/
theorem read_fillAt (h : source.Holds content) (hfilled : filled.Holds (fillAt content place count))
    (hfirst : StandsAt [0xFF] content place) (hcount : 0 < count) (hle : offset ≤ place)
    {data : ByteArray} (hread : read source offset = .ok data) :
    read filled offset = .ok ⟨(data.data.toList.take (place - offset)).toArray⟩ := by
  obtain ⟨before, hlength, hdrop, hdropFilled⟩ := @drop_fillAt_before _ _ count _ hfirst.1 hle
  obtain ⟨after, hafter⟩ := hfirst.2
  obtain ⟨fills, rfl⟩ := Nat.exists_eq_add_of_lt hcount
  have hends : endsAt (0xFF :: (List.replicate fills 0xFF ++ 0xFF :: after)) = true := by
    cases fills <;> rfl
  rw [read_eq h, hdrop, ← hafter] at hread
  obtain rfl := Except.ok.inj hread
  rw [read_eq hfilled, hdropFilled, ← hafter, show place - offset = before.length by omega,
    Nat.zero_add, List.replicate_succ]
  exact congrArg _ (congrArg _ (congrArg _ (extent_fill hends)))

/-- Data that end in front of the fill bytes stay what they are. -/
theorem read_fillAt_of_le (h : source.Holds content)
    (hfilled : filled.Holds (fillAt content place count)) (hfirst : StandsAt [0xFF] content place)
    {data : ByteArray} (hread : read source offset = .ok data) (hle : offset + data.size ≤ place) :
    read filled offset = .ok data := by
  obtain rfl | hcount := Nat.eq_zero_or_pos count
  · rw [fillAt_zero] at hfilled
    rw [read_eq hfilled, ← hread, read_eq h]
  · rw [read_fillAt h hfilled hfirst hcount (by omega) hread]
    have hwhole : data.data.toList.length ≤ place - offset := by
      rw [show data.data.toList.length = data.size from rfl]
      omega
    rw [List.take_of_length_le hwhole]

end EntropyData

/-- A marker begins with `FF`. -/
theorem Marker.Stored.first {m : Marker} (h : m.Stored) (hbytes : StandsAt m.bytes content offset) :
    StandsAt [0xFF] content offset := by
  obtain ⟨rest, hrest⟩ := m.exists_bytes_eq_cons h
  rw [hrest] at hbytes
  exact StandsAt.first hbytes

namespace Marker

/-- What stands in front of the place is read with and without the fill bytes. -/
theorem readAt_fillAt (h : source.Holds content)
    (hfilled : filled.Holds (fillAt content place count)) (hfirst : StandsAt [0xFF] content place)
    {number : Nat} {found : Found} (hread : readAt source offset number = .ok found)
    (hlt : offset < place) (hend : ∀ m next, found = .marker m next → next ≤ place) :
    readAt filled offset number = .ok found := by
  cases found with
  | fill =>
    have hpair := (readAt_fill_iff h).mp hread
    rw [readAt_fill_iff hfilled]
    have hsplit : StandsAt ([0xFF] ++ [0xFF]) content offset := hpair
    obtain ⟨hone, htwo⟩ := StandsAt.append_iff.mp hsplit
    refine StandsAt.append_iff.mpr ⟨hone.fillAt_before hfirst.1 hlt, ?_⟩
    obtain hinside | rfl := Nat.lt_or_eq_of_le (show offset + 1 ≤ place from hlt)
    · exact htwo.fillAt_before hfirst.1 hinside
    · exact hfirst.first_fillAt
  | marker m next =>
    rw [readAt_marker_iff h] at hread
    obtain ⟨hstored, hunread, hstart, hoffset, hnumber, hbytes, hnext⟩ := hread
    have hle := hend m next rfl
    exact (readAt_marker_iff hfilled).mpr ⟨hstored, hunread, hstart, hoffset, hnumber,
      hbytes.fillAt_before hfirst.1 (by omega), hnext⟩

end Marker

namespace Scanner

variable {s t : Scanner} {stream : Stream} {m : Marker} {next : Nat}

/-- Going on behind a marker that is not the last one does not depend on the source. -/
theorem leave_of_advance (h : leave source stream m next = .advance t) (other : Source) :
    leave other stream m next = .advance t := by
  by_cases hclean : stream.findings = []
  · rw [leave_of_clean hclean] at h ⊢
    split at h
    · cases h
    · next hend =>
      rw [if_neg hend]
      exact h
  · rw [leave_of_findings hclean] at h
    cases h

/-- A step that stays in front of the fill bytes is taken with and without them. -/
theorem step_fillAt (h : source.Holds content)
    (hfilled : filled.Holds (fillAt content place count)) (hfirst : StandsAt [0xFF] content place)
    (hlt : s.offset < place) (hstep : step source s = .advance t) (hle : t.offset ≤ place) :
    step filled s = .advance t := by
  rw [step] at hstep ⊢
  split at hstep
  · cases hstep
  · next hread =>
    rw [Marker.readAt_fillAt h hfilled hfirst hread hlt (by rintro _ _ ⟨⟩)]
    exact hstep
  · next m next hread =>
    have hnext := le_of_enter hstep
    rw [Marker.readAt_fillAt h hfilled hfirst hread hlt (by rintro _ _ ⟨⟩; omega)]
    dsimp only
    rw [enter] at hstep ⊢
    generalize s.stream.take m = taken at hstep ⊢
    obtain ⟨stream, m⟩ := taken
    dsimp only at hstep ⊢
    split at hstep
    · next hscan =>
      rw [if_pos hscan]
      rw [takeScanData] at hstep ⊢
      cases hdata : EntropyData.read source next with
      | error cause =>
        rw [hdata] at hstep
        cases hstep
      | ok data =>
        rw [hdata] at hstep
        have hstop := le_of_leave hstep
        rw [EntropyData.read_fillAt_of_le h hfilled hfirst hdata (by omega)]
        exact leave_of_advance hstep filled
    · next hscan =>
      rw [if_neg hscan]
      exact leave_of_advance hstep filled

/-- The steps up to the fill bytes are the same with and without them. -/
theorem Reaches.fillAt (h : source.Holds content)
    (hfilled : filled.Holds (fillAt content place count)) (hfirst : StandsAt [0xFF] content place)
    (hreach : Reaches source s t) (hle : t.offset ≤ place) : Reaches filled s t := by
  induction hreach with
  | refl s => exact .refl s
  | next hstep hrest ih =>
    have hlt := (offset_of_step hstep).2
    have hrest := hrest.offset_le
    exact .next (step_fillAt h hfilled hfirst (by omega) hstep (by omega)) (ih hle)

end Scanner

namespace Marker

variable {m : Marker}

theorem Stored.shift (h : m.Stored) (count : Nat) : (m.shift count).Stored where
  id_gt := h.id_gt
  id_lt := h.id_lt
  length_eq := h.length_eq
  length_lt := h.length_lt
  segment_offset := by
    have hoffset := h.segment_offset
    simp only [Marker.shift, Segment.shift, hoffset]
    omega
  standalone := h.standalone

end Marker

def Found.shift (count : Nat) : Found → Found
  | fill => fill
  | marker m next => marker (m.shift count) (next + count)

/-- What stands behind the fill bytes is read as it was. -/
theorem Marker.readAt_shift (h : source.Holds content)
    (hfilled : filled.Holds (fillAt content place count)) (hplace : place ≤ content.length)
    (hle : place ≤ offset) {number : Nat} {found : Found}
    (hread : readAt source offset number = .ok found) :
    readAt filled (offset + count) number = .ok (found.shift count) := by
  cases found with
  | fill =>
    rw [readAt_fill_iff h] at hread
    exact (readAt_fill_iff hfilled).mpr ((StandsAt.fillAt_iff hplace hle).mpr hread)
  | marker m next =>
    rw [readAt_marker_iff h] at hread
    obtain ⟨hstored, hunread, hstart, rfl, hnumber, hbytes, rfl⟩ := hread
    exact (readAt_marker_iff hfilled).mpr ⟨hstored.shift count, hunread, hstart, rfl, hnumber,
      (StandsAt.fillAt_iff hplace hle).mpr hbytes, Nat.add_right_comm _ _ _⟩

theorem EntropyData.read_shift (h : source.Holds content)
    (hfilled : filled.Holds (fillAt content place count)) (hplace : place ≤ content.length)
    (hle : place ≤ offset) : read filled (offset + count) = read source offset := by
  rw [read_eq hfilled, read_eq h, drop_fillAt hplace hle]

/-- The step goes on, or it ends the stream without a finding. -/
def Outcome.Quiet : Outcome → Prop
  | advance _ => True
  | finish s => s.findings = []

def Scanner.shiftFrom (s : Scanner) (place count : Nat) : Scanner :=
  ⟨s.offset + count, s.number, s.stream.shiftFrom place count⟩

def Outcome.shiftFrom (place count : Nat) : Outcome → Outcome
  | advance s => advance (s.shiftFrom place count)
  | finish s => finish (s.shiftFrom place count)

theorem Stream.push_shiftFrom {s : Stream} {m : Marker} (hle : place ≤ m.offset) :
    (s.push m).shiftFrom place count = (s.shiftFrom place count).push (m.shift count) := by
  simp only [push, shiftFrom, Array.map_push, Marker.shiftFrom, if_pos hle]

theorem Stream.close_shiftFrom {s : Stream} {embedded : Bool} {stop length : Nat}
    (hclean : (s.close embedded stop length).findings = []) :
    (s.shiftFrom place count).close embedded (stop + count) (length + count) =
      (s.close embedded stop length).shiftFrom place count := by
  rw [close] at hclean ⊢
  split at hclean
  · simp [report] at hclean
  · next hends =>
    rw [close, if_neg (by simpa using hends), if_neg hends]
    rfl

/-- Nothing is moved of a stream that ends in front of the place. -/
theorem Stream.shiftFrom_eq {s : Stream} (h : ∀ m ∈ s.markers, m.offset < place) :
    s.shiftFrom place count = s := by
  have hmarkers : s.markers.map (·.shiftFrom place count) = s.markers := by
    refine (Array.map_congr_left fun m hm => ?_).trans (Array.map_id _)
    exact if_neg (Nat.not_le.mpr (h m hm))
  rw [shiftFrom, hmarkers]

/-- No marker gets behind the fill bytes that did not stand where they were put in. -/
theorem Stream.offset_ne_of_mem_shiftFrom {s : Stream} (h : ∀ m ∈ s.markers, m.offset ≠ place)
    {r : Marker} (hr : r ∈ (s.shiftFrom place count).markers) : r.offset ≠ place + count := by
  obtain ⟨m, hm, rfl⟩ := Array.mem_map.mp hr
  have hne := h m hm
  rw [Marker.shiftFrom]
  split
  · rw [show (m.shift count).offset = m.offset + count from rfl]
    omega
  · omega

namespace Scanner

variable {s t : Scanner} {stream : Stream} {m : Marker} {next : Nat}

theorem quiet_of_run (h : (run source s).findings = []) : (step source s).Quiet := by
  cases hstep : step source s with
  | advance t => trivial
  | finish stream => rwa [run_finish hstep] at h

theorem findings_of_quiet (h : (leave source stream m next).Quiet) : stream.findings = [] := by
  by_contra hne
  rw [leave_of_findings hne] at h
  exact hne h

/-- Behind a scan header that is free of findings the data of the scan are checked. -/
theorem enter_scan (hid : m.id = MarkerId.startOfScan) (htaken : (stream.take m).1.findings = [])
    {data : ByteArray} (hdata : EntropyData.read source next = .ok data) :
    enter source stream m next = leave source ((stream.take m).1.checkScanData data next)
      (stream.take m).2 (next + data.size) := by
  obtain ⟨⟨index, hmarker⟩, _, _⟩ := stream.takes_take m
  have hscan : (stream.take m).2.id = MarkerId.startOfScan := by
    rw [hmarker]
    exact hid
  simp only [enter]
  rw [if_pos ⟨hscan, by simp [Stream.isClean, htaken]⟩, takeScanData, hdata]
  rfl

theorem findings_of_quiet_enter (h : (enter source stream m next).Quiet) :
    (stream.take m).1.findings = [] := by
  by_contra hne
  simp only [enter] at h
  rw [if_neg (fun hboth => hne (by simpa [Stream.isClean] using hboth.2))] at h
  exact hne (findings_of_quiet h)

theorem leave_shift (h : source.Holds content)
    (hfilled : filled.Holds (fillAt content place count)) (hle : place ≤ m.offset)
    (hquiet : (leave source stream m next).Quiet) :
    leave filled (stream.shiftFrom place count) (m.shift count) (next + count) =
      (leave source stream m next).shiftFrom place count := by
  have hclean := findings_of_quiet hquiet
  have hclean' : (stream.shiftFrom place count).findings = [] := hclean
  have hid : (m.shift count).id = m.id := rfl
  rw [leave_of_clean hclean] at hquiet ⊢
  rw [leave_of_clean hclean', hfilled.length_eq, length_fillAt, ← Stream.push_shiftFrom hle, hid]
  rw [h.length_eq] at hquiet ⊢
  split at hquiet
  · next hend =>
    rw [if_pos hend, if_pos hend]
    exact congrArg Outcome.finish (Stream.close_shiftFrom hquiet)
  · next hend =>
    rw [if_neg hend, if_neg hend]
    rfl

theorem enter_shift (h : source.Holds content)
    (hfilled : filled.Holds (fillAt content place count)) (hplace : place ≤ content.length)
    (hle : place ≤ m.offset) (hnext : m.offset ≤ next)
    (hquiet : (enter source stream m next).Quiet) :
    enter filled (stream.shiftFrom place count) (m.shift count) (next + count) =
      (enter source stream m next).shiftFrom place count := by
  obtain ⟨⟨index, hmarker⟩, _, _⟩ := stream.takes_take m
  simp only [enter, Stream.take_shiftFrom] at hquiet ⊢
  generalize stream.take m = taken at hmarker hquiet ⊢
  obtain ⟨stream, m'⟩ := taken
  obtain rfl : m' = m.moveTo index := hmarker
  have hsame : (stream.shiftFrom place count).isClean = stream.isClean := rfl
  have hid : ((m.moveTo index).shift count).id = (m.moveTo index).id := rfl
  dsimp only at hquiet ⊢
  rw [hsame, hid]
  split at hquiet
  · next hscan =>
    rw [if_pos hscan, if_pos hscan]
    rw [takeScanData] at hquiet ⊢
    rw [takeScanData, EntropyData.read_shift h hfilled hplace (Nat.le_trans hle hnext)]
    cases hread : EntropyData.read source next with
    | error cause => simp [hread, Except.map, Outcome.Quiet, Stream.report] at hquiet
    | ok data =>
      rw [hread] at hquiet
      dsimp only [Except.map] at hquiet ⊢
      rw [Stream.checkScanData_shiftFrom _ _ _ (findings_of_quiet hquiet), Nat.add_right_comm]
      exact leave_shift h hfilled hle hquiet
  · next hscan =>
    rw [if_neg hscan, if_neg hscan]
    exact leave_shift h hfilled hle hquiet

theorem step_shift (h : source.Holds content)
    (hfilled : filled.Holds (fillAt content place count)) (hplace : place ≤ content.length)
    (hle : place ≤ s.offset) (hquiet : (step source s).Quiet) :
    step filled (s.shiftFrom place count) = (step source s).shiftFrom place count := by
  rw [step] at hquiet ⊢
  rw [step]
  cases hread : Marker.readAt source s.offset s.number with
  | error finding => simp [hread, Outcome.Quiet, Stream.report] at hquiet
  | ok found =>
    rw [hread] at hquiet
    rw [show Marker.readAt filled (s.shiftFrom place count).offset
        (s.shiftFrom place count).number = .ok (found.shift count) from
      Marker.readAt_shift h hfilled hplace hle hread]
    cases found with
    | fill =>
      exact congrArg Outcome.advance (congrArg (Scanner.mk · _ _) (Nat.add_right_comm _ _ _))
    | marker m next =>
      have hoffset : m.offset = s.offset := ((Marker.readAt_marker_iff h).mp hread).2.2.2.1
      have hnext := Marker.lt_of_readAt hread
      exact enter_shift h hfilled hplace (by omega) (by omega) hquiet

/-- Behind the fill bytes a run without a finding goes on as it did. -/
theorem run_shift (h : source.Holds content)
    (hfilled : filled.Holds (fillAt content place count)) (hplace : place ≤ content.length)
    (hle : place ≤ s.offset) (hclean : (run source s).findings = []) :
    run filled (s.shiftFrom place count) = (run source s).shiftFrom place count := by
  fun_induction run source s with
  | case1 s stream hstep =>
    have hsame := step_shift h hfilled hplace hle (by rw [hstep]; exact hclean)
    rw [hstep] at hsame
    exact run_finish hsame
  | case2 s t hstep _ ih =>
    have hsame := step_shift h hfilled hplace hle (by rw [hstep]; trivial)
    rw [hstep] at hsame
    rw [run_advance hsame]
    have hlt := (offset_of_step hstep).2
    exact ih (by omega) hclean

/-- Fill bytes in front of a marker that is recorded change nothing but the places from there on. -/
theorem run_fillAt (h : source.Holds content)
    (hbefore : ∀ m ∈ s.stream.markers, m.offset < s.offset)
    (hclean : (run source s).findings = []) (hm : m ∈ (run source s).markers)
    (hnew : m ∉ s.stream.markers) (hfilled : filled.Holds (fillAt content m.offset count)) :
    run filled s = (run source s).shiftFrom m.offset count := by
  obtain ⟨t, m', next, index, hreach, hread, rfl⟩ := exists_reaches_of_mem hm hnew
  obtain ⟨hstored, _, _, hoffset, _, hbytes, _⟩ := (Marker.readAt_marker_iff h).mp hread
  have hplace : (m'.moveTo index).offset = t.offset := hoffset
  rw [hplace] at hfilled ⊢
  have hfirst := hstored.first hbytes
  have hstream : t.stream.shiftFrom t.offset count = t.stream :=
    Stream.shiftFrom_eq (hreach.lt_offset h hbefore)
  have hend : t.shiftFrom t.offset count = ⟨t.offset + count, t.number, t.stream⟩ := by
    rw [shiftFrom, hstream]
  rw [hreach.run_eq] at hclean ⊢
  calc run filled s
    _ = run filled t := (hreach.fillAt h hfilled hfirst (Nat.le_refl _)).run_eq
    _ = run filled ⟨t.offset + count, t.number, t.stream⟩ := run_fill hfilled hfirst.fillAt_fill
    _ = run filled (t.shiftFrom t.offset count) := by rw [hend]
    _ = (run source t).shiftFrom t.offset count :=
      run_shift h hfilled hfirst.1 (Nat.le_refl _) hclean

end Scanner

end Jpeg
end ImageAudit
