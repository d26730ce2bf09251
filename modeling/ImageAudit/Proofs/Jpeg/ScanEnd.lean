import ImageAudit.Proofs.Jpeg.ScanExtent
import Mathlib.Data.Nat.Find
import Mathlib.Order.Bounds.Basic

/-! Where entropy-coded data end. It is the first `0xFF` behind which a byte stands that is neither
the zero of byte stuffing nor of a restart marker, or the end of the source if there is none. The
sizes of the chunks in which the data are fetched make no difference. -/
namespace ImageAudit.Jpeg.EntropyData

/-- At `i` stands an `0xFF` and a byte with which the data do not go on. -/
def MarkerAt (content : List UInt8) (i : Nat) : Prop :=
  content[i]? = some 0xFF ∧
    ∃ second, content[i + 1]? = some second ∧ second ≠ 0 ∧ ¬ (0xD0 ≤ second ∧ second ≤ 0xD7)

def IsEnd (content : List UInt8) (offset stop : Nat) : Prop :=
  IsLeast {i | offset ≤ i ∧ MarkerAt content i} stop ∨
    (∀ i, offset ≤ i → ¬ MarkerAt content i) ∧ stop = content.length

/-- Goes on fetching as `readFrom` does, with chunks of the given sizes first. -/
def readSized (source : Source) : (sizes : List Nat) → (position : Nat) → (data : ByteArray) →
    (index : Nat) → Except ReadError ByteArray
  | [], position, data, index => readFrom source position data index
  | size :: sizes, position, data, index =>
    if position < source.length then
      let count := min (source.length - position) size
      match source.read position count with
      | .error e => .error e
      | .ok chunk =>
        let data := data ++ chunk
        match search data index with
        | .found stop => .ok (data.extract 0 stop)
        | .resume index => readSized source sizes (position + count) data index
    else .ok data

variable {source : Source} {content : List UInt8} {offset stop : Nat}

theorem continues_iff {second : UInt8} :
    continues second = true ↔ second = 0 ∨ 0xD0 ≤ second ∧ second ≤ 0xD7 := by
  rw [continues, Bool.or_eq_true, beq_iff_eq, MarkerId.isRestart_iff]
  rfl

theorem endsAt_drop_iff {i : Nat} : endsAt (content.drop i) = true ↔ MarkerAt content i := by
  rw [MarkerAt, ← Nat.add_zero i, ← List.getElem?_drop, Nat.add_zero, ← List.getElem?_drop]
  obtain _ | ⟨b, _ | ⟨second, rest⟩⟩ := content.drop i
  · simp [endsAt]
  · simp [endsAt]
  · have hgo : continues second = false ↔ second ≠ 0 ∧ ¬ (0xD0 ≤ second ∧ second ≤ 0xD7) := by
      rw [← Bool.not_eq_true, continues_iff, not_or]
    simp [endsAt, hgo]

theorem exists_isEnd (content : List UInt8) (offset : Nat) : ∃ stop, IsEnd content offset stop := by
  classical
  by_cases hsome : ∃ i, offset ≤ i ∧ MarkerAt content i
  · exact ⟨Nat.find hsome, .inl ⟨Nat.find_spec hsome, fun i hi => Nat.find_min' hsome hi⟩⟩
  · exact ⟨content.length, .inr ⟨fun i hi hmarker => hsome ⟨i, hi, hmarker⟩, rfl⟩⟩

/-- A stretch without a marker is passed. -/
theorem passed_of_forall {bytes : List UInt8} {n : Nat} (hn : n ≤ bytes.length)
    (h : ∀ i < n, ¬ MarkerAt bytes i) : Passed bytes n := by
  induction n with
  | zero => exact passed_zero bytes
  | succ n ih =>
    refine (ih (by omega) fun i hi => h i (by omega)).succ hn ?_
    exact Bool.eq_false_iff.mpr fun hend => h n (by omega) (endsAt_drop_iff.mp hend)

theorem markerAt_drop_iff {i : Nat} : MarkerAt (content.drop offset) i ↔
    MarkerAt content (offset + i) := by
  rw [← endsAt_drop_iff, ← endsAt_drop_iff, List.drop_drop]

/-- One pass over the bytes finds the end. -/
theorem extent_drop (h : IsEnd content offset stop) :
    extent (content.drop offset) = bytesAt content offset (stop - offset) := by
  rcases h with ⟨⟨hle, hmarker⟩, hleast⟩ | ⟨hnone, rfl⟩
  · obtain ⟨n, rfl⟩ := Nat.exists_eq_add_of_le hle
    have hlt : offset + n < content.length := (List.getElem?_eq_some_iff.mp hmarker.1).1
    have hpassed : Passed (content.drop offset) n := by
      refine passed_of_forall (by rw [List.length_drop]; omega) fun i hi hfirst => ?_
      have := hleast ⟨Nat.le_add_right offset i, markerAt_drop_iff.mp hfirst⟩
      omega
    rw [hpassed.extent_eq (endsAt_drop_iff.mpr (markerAt_drop_iff.mpr hmarker)), bytesAt,
      Nat.add_sub_cancel_left]
  · have hpassed : Passed (content.drop offset) (content.drop offset).length :=
      passed_of_forall le_rfl fun i _ hmarker =>
        hnone (offset + i) (Nat.le_add_right _ _) (markerAt_drop_iff.mp hmarker)
    rw [hpassed, List.drop_length, List.take_length, bytesAt, ← List.length_drop, List.take_length]
    exact List.append_nil _

/-- The first chunks may have any size. -/
theorem readSized_eq (h : source.Holds content) {sizes : List Nat} {position index : Nat}
    {data : ByteArray} (hindex : index ≤ data.size)
    (hpassed : Passed (data.data.toList ++ content.drop position) index)
    (hrest : extent (data.data.toList.drop index) = data.data.toList.drop index) :
    readSized source sizes position data index =
      .ok ⟨(extent (data.data.toList ++ content.drop position)).toArray⟩ := by
  induction sizes generalizing position data index with
  | nil => exact readFrom_eq h hindex hpassed hrest
  | cons size sizes ih =>
    rw [readSized]
    split
    · next hlt =>
      obtain ⟨chunk, hread, _⟩ := h.read_eq position (min (source.length - position) size)
        (by rw [← h.length_eq]; omega)
      obtain ⟨hfound, hresume⟩ := search_chunk h hread hindex hpassed
      dsimp only
      rw [hread]
      dsimp only
      cases hsearch : search (data ++ chunk) index with
      | found stop => exact congrArg Except.ok (hfound stop hsearch)
      | resume next =>
        obtain ⟨hle, hpassed, hrest⟩ := hresume next hsearch
        rw [← append_chunk h hread]
        exact ih hle hpassed hrest
    · next hend =>
      rw [h.length_eq] at hend
      rw [List.drop_eq_nil_of_le (Nat.le_of_not_lt hend), List.append_nil] at hpassed ⊢
      rw [hpassed, hrest, List.take_append_drop]

/-- What is read are the bytes up to where the data end, in front of the first marker or with the
source, whichever sizes the chunks have; nothing is read from the end of the source on. -/
theorem read_upTo_end (h : source.Holds content) (offset : Nat) :
    (∃ stop, IsEnd content offset stop) ∧
    (∀ stop, IsEnd content offset stop → ∃ data, read source offset = .ok data ∧
      data.data.toList = bytesAt content offset (stop - offset) ∧
      ∀ sizes, readSized source sizes offset .empty 0 = .ok data) ∧
    (content.length ≤ offset → read source offset = .ok .empty) := by
  have hread : ∀ sizes, readSized source sizes offset .empty 0 =
      .ok ⟨(extent (content.drop offset)).toArray⟩ :=
    fun sizes => readSized_eq h (Nat.zero_le _) (passed_zero _) rfl
  refine ⟨exists_isEnd content offset, fun stop hstop => ?_, fun hoffset => ?_⟩
  · refine ⟨_, hread [], ?_, hread⟩
    exact extent_drop hstop
  · refine (hread []).trans ?_
    rw [List.drop_eq_nil_of_le hoffset]
    rfl

def splitMarker : List UInt8 := List.replicate (chunkSize - 1) 0x2A ++ [0xFF, 0xD9]

theorem isEnd_splitMarker : IsEnd splitMarker 0 (chunkSize - 1) := by
  rw [splitMarker]
  generalize chunkSize - 1 = n
  refine .inl ⟨⟨Nat.zero_le n, ?_⟩, fun i hi => ?_⟩
  · rw [← endsAt_drop_iff, List.drop_left' List.length_replicate]
    rfl
  · by_contra hlt
    have hbyte := hi.2.1
    rw [List.getElem?_append_left (by simpa using hlt), List.getElem?_replicate,
      if_pos (Nat.lt_of_not_le hlt)] at hbyte
    cases hbyte

theorem read_upTo_end_splitMarker :
    (Source.ofBytes "scan" ⟨splitMarker.toArray⟩).Holds splitMarker ∧
      ∃ data, read (.ofBytes "scan" ⟨splitMarker.toArray⟩) 0 = .ok data ∧
        data.data.toList = List.replicate (chunkSize - 1) 0x2A := by
  have hlength : splitMarker.length = chunkSize - 1 + 2 := by
    rw [splitMarker, List.length_append, List.length_replicate]
    rfl
  have hsize : (⟨splitMarker.toArray⟩ : ByteArray).size ≤ maxWord := by
    change splitMarker.length ≤ maxWord
    rw [hlength]
    decide
  have hholds := Source.Holds.ofBytes "scan" hsize
  obtain ⟨_, hread, _⟩ := read_upTo_end hholds 0
  obtain ⟨data, hdata, hbytes, _⟩ := hread _ isEnd_splitMarker
  refine ⟨hholds, data, hdata, hbytes.trans ?_⟩
  rw [bytesAt, List.drop_zero, Nat.sub_zero, splitMarker, List.take_left' List.length_replicate]

end ImageAudit.Jpeg.EntropyData
