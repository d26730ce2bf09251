import ImageAudit.Jpeg.Decoder
import ImageAudit.Proofs.Bytes.Content

/-! Sources that cannot be told apart. A stream is judged by the length of its source and by what
reads of it give, so two sources that hold the same bytes are judged alike. -/
namespace ImageAudit

/-- The sources have the same length, and all reads of them give the same. -/
structure Source.Agrees (s t : Source) : Prop where
  length_eq : s.length = t.length
  read_eq : ∀ offset count, s.read offset count = t.read offset count

namespace Source

variable {s t : Source}

theorem Agrees.hasSection_eq (h : s.Agrees t) (offset count : Nat) :
    s.hasSection offset count = t.hasSection offset count := by
  rw [hasSection, hasSection, h.length_eq]

/-- Sources that hold the same bytes agree. -/
theorem Holds.agrees {content : List UInt8} (hs : s.Holds content) (ht : t.Holds content) :
    s.Agrees t where
  length_eq := hs.length_eq.trans ht.length_eq.symm
  read_eq offset count := by
    by_cases hle : offset + count ≤ content.length
    · obtain ⟨bytes, hread, hbytes⟩ := hs.read_eq offset count hle
      obtain ⟨hsize, hstands⟩ := hs.read_iff.mp hread
      rw [hread, ht.read_iff.mpr ⟨hsize, hstands⟩]
    · have hnot : s.hasSection offset count ≠ true := mt hs.hasSection_iff.mp hle
      have hnot' : t.hasSection offset count ≠ true := mt ht.hasSection_iff.mp hle
      rw [read, read, if_neg hnot, if_neg hnot', hs.length_eq, ht.length_eq]

/-- A window of a source holds the bytes in it. -/
theorem Holds.window {content : List UInt8} {start length : Nat} (h : s.Holds content)
    (hsection : s.hasSection start length = true) :
    (s.window start length).Holds (bytesAt content start length) := by
  have hle := h.hasSection_iff.mp hsection
  have hword := (Source.hasSection_iff.mp hsection).1
  have hlength := length_bytesAt hle
  refine ⟨hlength.symm, fun offset count hcount => ?_⟩
  rw [hlength] at hcount
  obtain ⟨bytes, hread, hbytes⟩ := h.read_eq (start + offset) count (by omega)
  have hinside : (s.window start length).hasSection offset count = true :=
    Source.hasSection_iff.mpr ⟨by omega, hcount⟩
  refine ⟨bytes, ?_, ?_⟩
  · rw [read, if_pos hinside]
    exact hread
  · rw [hbytes, bytesAt, bytesAt, bytesAt, List.drop_take, List.drop_drop, List.take_take,
      Nat.min_eq_left (by omega)]

end Source

namespace Jpeg

variable {s t : Source}

namespace Marker

theorem readWord_congr (h : s.Agrees t) (offset : Nat) : readWord s offset = readWord t offset := by
  simp only [readWord, h.hasSection_eq, h.read_eq, h.length_eq]

theorem readPayload_congr (h : s.Agrees t) (offset count : Nat) :
    readPayload s offset count = readPayload t offset count := by
  simp only [readPayload, h.hasSection_eq, h.read_eq, h.length_eq]

theorem readAt_congr (h : s.Agrees t) (offset number : Nat) :
    readAt s offset number = readAt t offset number := by
  simp only [readAt, readMarker, readSegment, readWord_congr h, readPayload_congr h]

end Marker

theorem EntropyData.readFrom_congr (h : s.Agrees t) (position : Nat) (data : ByteArray)
    (index : Nat) : readFrom s position data index = readFrom t position data index := by
  fun_induction readFrom s position data index with
  | case1 position data index hlt count cause hread =>
    rw [h.read_eq, show count = min (t.length - position) chunkSize by rw [← h.length_eq]] at hread
    rw [readFrom, dif_pos (h.length_eq ▸ hlt)]
    simp only [hread]
  | case2 position data index hlt count chunk hread searched stop hsearch =>
    rw [readFrom.eq_def t, dif_pos (h.length_eq ▸ hlt)]
    simp only [← h.length_eq, ← h.read_eq]
    rw [hread]
    simp only [searched] at hsearch ⊢
    rw [hsearch]
  | case3 position data index hlt count chunk hread searched resume hsearch ih =>
    rw [readFrom.eq_def t position, dif_pos (h.length_eq ▸ hlt)]
    simp only [← h.length_eq, ← h.read_eq]
    rw [hread]
    simp only [searched] at hsearch ih ⊢
    rw [hsearch]
    exact ih
  | case4 position data index hnot =>
    rw [readFrom, dif_neg (h.length_eq ▸ hnot)]

namespace Scanner

theorem enter_congr (h : s.Agrees t) (stream : Stream) (m : Marker) (next : Nat) :
    enter s stream m next = enter t stream m next := by
  simp only [enter, takeScanData, EntropyData.read, EntropyData.readFrom_congr h, leave,
    h.length_eq]

theorem step_congr (h : s.Agrees t) (scanner : Scanner) : step s scanner = step t scanner := by
  simp only [step, Marker.readAt_congr h, enter_congr h]

theorem run_congr (h : s.Agrees t) (scanner : Scanner) : run s scanner = run t scanner := by
  fun_induction run s scanner with
  | case1 scanner stream hstep =>
    rw [step_congr h] at hstep
    rw [run]
    split
    · next hf => simpa [hstep] using hf
    · next ha => simp [hstep] at ha
  | case2 scanner next hstep _ ih =>
    rw [step_congr h] at hstep
    rw [ih, run.eq_def t scanner]
    split
    · next hf => simp [hstep] at hf
    · next ha =>
      obtain rfl : next = _ := by simpa [hstep] using ha
      rfl

end Scanner

namespace Decoder

theorem identify_congr (h : s.Agrees t) (d : Decoder) : d.identify s = d.identify t := by
  simp only [identify, Stream.identify, h.read_eq]

/-- Two sources that hold the same bytes are judged alike. -/
theorem process_congr (h : s.Agrees t) (d : Decoder) : d.process s = d.process t := by
  rw [process, process, identify_congr h]
  simp only [Stream.check, Scanner.run_congr h]

end Decoder
end Jpeg
end ImageAudit
