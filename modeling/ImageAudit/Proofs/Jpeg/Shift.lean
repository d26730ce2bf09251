import ImageAudit.Proofs.Jpeg.AlikeReaders
import ImageAudit.Proofs.Jpeg.MarkerReading
import ImageAudit.Jpeg.Stream

/-! What is read from further behind. Payloads and scan data are read alike wherever they stand: the
place is told in findings, and it shifts with what was read. -/
namespace ImageAudit

def Segment.shift (s : Segment) (count : Nat) : Segment := { s with offset := s.offset + count }

-- These two are not left to `rfl`: as definitional equations they would rewrite a condition but not
-- the instance that decides it.
theorem Segment.uint_shift (s : Segment) (count width : Nat) :
    (s.shift count).uint width = ((s.uint width).1, (s.uint width).2.shift count) :=
  Prod.ext rfl rfl

theorem Segment.getData_shift (s : Segment) (count n : Nat) :
    (s.shift count).getData n = ((s.getData n).1, (s.getData n).2.shift count) :=
  Prod.ext rfl rfl

theorem Segment.left_shift (s : Segment) (count : Nat) : (s.shift count).left = s.left := rfl

namespace Jpeg

def Marker.shift (m : Marker) (count : Nat) : Marker :=
  { m with offset := m.offset + count, segment := m.segment.shift count }

variable (m : Marker) (cursor : Segment) (count : Nat)

namespace Frame

theorem readComponents_shift (components : Nat) (f : Frame) :
    readComponents components f (cursor.shift count) =
      ((readComponents components f cursor).1, (readComponents components f cursor).2.1.shift count,
        (readComponents components f cursor).2.2) := by
  induction components generalizing f cursor with
  | zero => rfl
  | succ components ih =>
    have hrest := ih (readComponent cursor).2 (f.addComponent (readComponent cursor).1)
    simp only [readComponents]
    rw [show readComponent (cursor.shift count) =
      ((readComponent cursor).1, (readComponent cursor).2.shift count) from rfl]
    dsimp only
    rw [hrest]

theorem ofPayload_shift (frameClass : FrameClass) :
    ofPayload (m.shift count) frameClass =
      ((ofPayload m frameClass).1, (ofPayload m frameClass).2.1.shift count,
        (ofPayload m frameClass).2.2) := by
  simp only [ofPayload, Marker.shift, Segment.uint_shift]
  split
  · rfl
  · rw [readComponents_shift]

theorem read_shift (existing : Option Frame) :
    read (m.shift count) existing =
      ((read m existing).1, (read m existing).2.1.shift count, (read m existing).2.2) := by
  have hpayload : (m.shift count).payloadLength = m.payloadLength := rfl
  have hid : (m.shift count).id = m.id := rfl
  have hlength : (m.shift count).length = m.length := rfl
  simp only [read, hpayload, hid, hlength]
  split
  · rw [ofPayload_shift]
  · rfl

end Frame

namespace Scan

theorem readComponents_shift (components : Nat) :
    readComponents components (cursor.shift count) =
      ((readComponents components cursor).1,
        (readComponents components cursor).2.shift count) := by
  induction components generalizing cursor with
  | zero => rfl
  | succ components ih =>
    simp only [readComponents]
    rw [show readComponent (cursor.shift count) =
      ((readComponent cursor).1, (readComponent cursor).2.shift count) from rfl]
    dsimp only
    rw [ih]

theorem read_shift (f : Frame) :
    read (m.shift count) f =
      ((read m f).1, (read m f).2.1.shift count, (read m f).2.2) := by
  simp only [read, Marker.shift, Segment.uint_shift, readComponents_shift]
  split
  · rfl
  split
  · rfl
  · rfl

end Scan

namespace Huffman

theorem readDefinition_shift (limits : Limits) :
    readDefinition limits (cursor.shift count) =
      ((readDefinition limits cursor).1, (readDefinition limits cursor).2.shift count) := by
  simp only [readDefinition, Segment.uint_shift, Segment.getData_shift, Segment.left_shift]
  split
  · rfl
  split
  · rfl
  split
  · rfl
  split
  · rfl
  · rfl

theorem readTables_shift (limits : Limits) (tables : Tables) :
    readTables limits (cursor.shift count) tables =
      ((readTables limits cursor tables).1, (readTables limits cursor tables).2.1.shift count,
        (readTables limits cursor tables).2.2) := by
  fun_induction readTables limits cursor tables with
  | case1 cursor tables h => rw [readTables, dif_pos ((cursor.left_shift count).trans h)]
  | case2 cursor tables h _ findings hdefinition =>
    have hshift := readDefinition_shift cursor count limits
    have hfirst : (readDefinition limits (cursor.shift count)).1 = .error findings :=
      (congrArg Prod.fst hshift).trans hdefinition
    rw [readTables, dif_neg (mt (cursor.left_shift count).symm.trans h)]
    dsimp only
    rw [hfirst, congrArg Prod.snd hshift]
  | case3 cursor tables h _ table hdefinition ih =>
    have hshift := readDefinition_shift cursor count limits
    have hfirst : (readDefinition limits (cursor.shift count)).1 = .ok table :=
      (congrArg Prod.fst hshift).trans hdefinition
    rw [readTables, dif_neg (mt (cursor.left_shift count).symm.trans h)]
    dsimp only
    rw [hfirst, congrArg Prod.snd hshift]
    exact ih

end Huffman

namespace Quantization

theorem readDefinition_shift :
    readDefinition (cursor.shift count) =
      ((readDefinition cursor).1, (readDefinition cursor).2.shift count) := by
  simp only [readDefinition, Segment.uint_shift, Segment.getData_shift, Segment.left_shift]
  split
  · rfl
  split
  · rfl
  split
  · rfl
  · rfl

theorem readTables_shift (tables : Slots Table) :
    readTables (cursor.shift count) tables =
      ((readTables cursor tables).1, (readTables cursor tables).2.1.shift count,
        (readTables cursor tables).2.2) := by
  fun_induction readTables cursor tables with
  | case1 cursor tables h => rw [readTables, dif_pos ((cursor.left_shift count).trans h)]
  | case2 cursor tables h _ findings hdefinition =>
    have hshift := readDefinition_shift cursor count
    have hfirst : (readDefinition (cursor.shift count)).1 = .error findings :=
      (congrArg Prod.fst hshift).trans hdefinition
    rw [readTables, dif_neg (mt (cursor.left_shift count).symm.trans h)]
    dsimp only
    rw [hfirst, congrArg Prod.snd hshift]
  | case3 cursor tables h _ table hdefinition ih =>
    have hshift := readDefinition_shift cursor count
    have hfirst : (readDefinition (cursor.shift count)).1 = .ok table :=
      (congrArg Prod.fst hshift).trans hdefinition
    rw [readTables, dif_neg (mt (cursor.left_shift count).symm.trans h)]
    dsimp only
    rw [hfirst, congrArg Prod.snd hshift]
    exact ih

end Quantization

namespace BitReader

def shift (r : BitReader) (count : Nat) : BitReader := { r with position := r.position + count }

variable (r : BitReader)

theorem nextByte?_shift :
    (r.shift count).nextByte? = r.nextByte?.map fun (b, rest, position) =>
      (b, rest, position + count) := by
  obtain ⟨rest, position, pending⟩ := r
  simp only [nextByte?, shift]
  split
  · rfl
  split
  · simp [Nat.add_right_comm]
  split
  · simp [Nat.add_right_comm]
  · rfl

theorem readBit_shift : (r.shift count).readBit = (r.readBit.1, r.readBit.2.shift count) := by
  obtain ⟨rest, position, pending⟩ := r
  cases pending with
  | cons bit pending => rfl
  | nil =>
    have hnext := nextByte?_shift count ⟨rest, position, []⟩
    simp only [readBit, shift] at hnext ⊢
    rw [hnext]
    cases BitReader.nextByte? ⟨rest, position, []⟩ with
    | none => rfl
    | some found =>
      obtain ⟨b, rest, position⟩ := found
      dsimp only [Option.map]
      cases bits b with
      | nil => rfl
      | cons bit pending => rfl

/-- A reader and the one further behind give the same bits. -/
theorem alike_shift : Alike fun r s => s = r.shift count := by
  rintro r _ rfl
  rw [readBit_shift]
  exact ⟨rfl, rfl⟩

/-- Where a restart marker is taken it is taken further behind as well. -/
theorem restart_shift {expected : Nat} {r s : BitReader} (h : r.restart expected = (.ok (), s)) :
    (r.shift count).restart expected = (.ok (), s.shift count) := by
  obtain ⟨rest, position, pending⟩ := r
  simp only [restart, shift] at h ⊢
  split at h
  · split at h
    · next hrestart =>
      split at h
      · next hexpected =>
        obtain ⟨_, rfl⟩ := Prod.mk.inj h
        rw [if_pos hrestart, if_pos hexpected, Nat.add_right_comm]
      · cases (Prod.mk.inj h).1
    · cases (Prod.mk.inj h).1
  · cases (Prod.mk.inj h).1

end BitReader

namespace ScanData

def Progress.shift (s : Progress) (count : Nat) : Progress :=
  { s with reader := s.reader.shift count }

namespace Plan

variable {p : Plan} {s t : Progress}

theorem sync_shift (h : p.sync s = .ok t) : p.sync (s.shift count) = .ok (t.shift count) := by
  rw [sync] at h ⊢
  split at h
  · next hdue =>
    rw [if_pos (by exact hdue)]
    split at h
    · next r hrestart =>
      obtain rfl := Except.ok.inj h
      rw [show (s.shift count).reader.restart (s.shift count).expected = _ from
        BitReader.restart_shift count hrestart]
      rfl
    · cases h
  · next hdue =>
    obtain rfl := Except.ok.inj h
    rw [if_neg (by exact hdue)]

theorem step_shift (h : p.step s = .ok t) : p.step (s.shift count) = .ok (t.shift count) := by
  rw [step] at h ⊢
  split at h
  · cases h
  · next u hsync =>
    rw [sync_shift count hsync]
    obtain ⟨result, r, _, hfirst, hsecond, rfl⟩ :=
      (agree_decodeUnit (BitReader.alike_shift count) (r := u.reader) rfl p.blocks).exists_eq
    rw [hfirst] at h
    dsimp only at h ⊢
    rw [show decodeUnit p.blocks (u.shift count).reader = _ from hsecond]
    cases result with
    | error e => cases h
    | ok _ =>
      obtain rfl := Except.ok.inj h
      rfl

theorem run_shift {units : Nat} (h : p.run units s = .ok t) :
    p.run units (s.shift count) = .ok (t.shift count) := by
  induction units generalizing s with
  | zero => exact congrArg (Except.ok ∘ (Progress.shift · count)) (Except.ok.inj h)
  | succ units ih =>
    rw [run] at h ⊢
    split at h
    · cases h
    · next u hstep =>
      rw [step_shift count hstep]
      exact ih h

end Plan

/-- Scan data without a finding have none further behind. -/
theorem check_shift {f : Frame} {tables : Huffman.Tables} {interval offset number : Nat}
    {data : ByteArray} (h : check f tables interval data offset number = []) :
    check f tables interval data (offset + count) number = [] := by
  simp only [check] at h ⊢
  split at h
  · rfl
  · split at h
    · next hmissing =>
      rw [if_pos hmissing]
      exact h
    · next hmissing =>
      rw [if_neg hmissing]
      split at h
      · rfl
      · split at h
        · next t hrun =>
          rw [show (⟨0, 0, .ofBytes data (offset + count)⟩ : Progress) =
            Progress.shift ⟨0, 0, .ofBytes data offset⟩ count from rfl, Plan.run_shift count hrun]
        · cases h

end ScanData

def Marker.shiftFrom (m : Marker) (place count : Nat) : Marker :=
  if place ≤ m.offset then m.shift count else m

/-- The same stream with the markers from `place` on read from `count` bytes further behind. -/
def Stream.shiftFrom (s : Stream) (place count : Nat) : Stream :=
  { s with markers := s.markers.map (·.shiftFrom place count) }

namespace Stream

variable (s : Stream) (place : Nat)

theorem take_shiftFrom :
    (s.shiftFrom place count).take (m.shift count) =
      ((s.take m).1.shiftFrom place count, (s.take m).2.shift count) := by
  have hid : (m.shift count).id = m.id := rfl
  have hframe : (s.shiftFrom place count).frame = s.frame := rfl
  simp only [take, hid]
  split
  · simp only [takeFrame, hframe, Frame.read_shift]
    rfl
  split
  · simp only [takeScan, hframe, Scan.read_shift]
    cases s.frame <;> rfl
  split
  · simp only [takeHuffman, hframe]
    rw [show (m.shift count).segment = m.segment.shift count from rfl,
      show (s.shiftFrom place count).huffman = s.huffman from rfl, Huffman.readTables_shift]
    rfl
  split
  · simp only [takeQuantization]
    rw [show (m.shift count).segment = m.segment.shift count from rfl,
      show (s.shiftFrom place count).quantization = s.quantization from rfl,
      Quantization.readTables_shift]
    rfl
  split
  · simp only [takeRestartInterval, show (m.shift count).length = m.length from rfl]
    split <;> rfl
  · rfl

theorem checkScanData_shiftFrom {data : ByteArray} {offset : Nat}
    (hclean : (s.checkScanData data offset).findings = []) :
    (s.shiftFrom place count).checkScanData data (offset + count) =
      (s.checkScanData data offset).shiftFrom place count := by
  have hframe : (s.shiftFrom place count).frame = s.frame := rfl
  have hscans : (s.shiftFrom place count).numScans = s.numScans := rfl
  have hhuffman : (s.shiftFrom place count).huffman = s.huffman := rfl
  have hinterval : (s.shiftFrom place count).restartInterval = s.restartInterval := rfl
  cases hsome : s.frame with
  | none => simp only [checkScanData, hframe, hsome]
  | some f =>
    simp only [checkScanData, hframe, hscans, hhuffman, hinterval, hsome] at hclean ⊢
    split at hclean
    · next hdecoded =>
      rw [if_pos hdecoded, if_pos hdecoded]
      have hfindings := List.append_eq_nil_iff.mp hclean
      rw [ScanData.check_shift count hfindings.2, hfindings.2]
      rfl
    · next hdecoded => rw [if_neg hdecoded, if_neg hdecoded]

end Stream

end Jpeg
end ImageAudit
