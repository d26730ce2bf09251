import ImageAudit.Jpeg.EntropyData
import ImageAudit.Proofs.Bytes.Content

/-! How far entropy-coded data reach. What is fetched in chunks is what one pass over the bytes
finds, so neither the size of the chunks nor the bytes behind the end make a difference. -/
namespace ImageAudit.Jpeg.EntropyData

/-- Entropy-coded data end here: at an `0xFF` and a byte with which they do not go on. -/
def endsAt : List UInt8 → Bool
  | b :: second :: _ => b == 0xFF && !continues second
  | _ => false

/-- The entropy-coded data with which `bytes` begin; all of them if no end is found. -/
def extent : List UInt8 → List UInt8
  | [] => []
  | b :: rest => if endsAt (b :: rest) then [] else b :: extent rest

theorem endsAt_cons_of_ne {b : UInt8} (h : b ≠ 0xFF) (rest : List UInt8) :
    endsAt (b :: rest) = false := by
  cases rest with
  | nil => rfl
  | cons second rest => rw [endsAt, beq_false_of_ne h, Bool.false_and]

theorem endsAt_marker (second : UInt8) (rest : List UInt8) :
    endsAt (0xFF :: second :: rest) = !continues second := rfl

theorem extent_of_endsAt {bytes : List UInt8} (h : endsAt bytes = true) : extent bytes = [] := by
  cases bytes with
  | nil => rfl
  | cons b rest => rw [extent, if_pos h]

/-- Data that end before the bytes do end there whatever is added behind the bytes. -/
theorem extent_append {bytes : List UInt8} (h : extent bytes ≠ bytes) (more : List UInt8) :
    extent (bytes ++ more) = extent bytes := by
  induction bytes with
  | nil => exact absurd rfl h
  | cons b rest ih =>
    cases rest with
    | nil => exact absurd rfl h
    | cons second rest =>
      have hsame : endsAt (b :: second :: (rest ++ more)) = endsAt (b :: second :: rest) := rfl
      rw [extent] at h ⊢
      rw [List.cons_append, List.cons_append, extent, hsame]
      split at h
      · next hend => rw [if_pos hend, if_pos hend]
      · next hend =>
        rw [if_neg hend, if_neg hend]
        exact congrArg (b :: ·) (ih fun heq => h (congrArg (b :: ·) heq))

/-- The search has passed the first `index` bytes without an end. -/
def Passed (bytes : List UInt8) (index : Nat) : Prop :=
  extent bytes = bytes.take index ++ extent (bytes.drop index)

theorem passed_zero (bytes : List UInt8) : Passed bytes 0 := rfl

variable {bytes : List UInt8} {index : Nat}

theorem Passed.succ (h : Passed bytes index) (hlt : index < bytes.length)
    (hgo : endsAt (bytes.drop index) = false) : Passed bytes (index + 1) := by
  have hdrop : bytes.drop index = bytes[index] :: bytes.drop (index + 1) :=
    List.drop_eq_getElem_cons hlt
  rw [hdrop] at hgo
  rw [Passed, h, hdrop, extent, if_neg (by rw [hgo]; decide), List.take_succ_eq_append_getElem hlt,
    List.append_assoc]
  rfl

theorem Passed.extent_eq (h : Passed bytes index) (hend : endsAt (bytes.drop index) = true) :
    extent bytes = bytes.take index := by
  rw [h, extent_of_endsAt hend, List.append_nil]

variable {data : ByteArray} {tail : List UInt8}

private theorem drop_toList (hindex : index < data.size) :
    data.data.toList.drop index = data[index] :: data.data.toList.drop (index + 1) :=
  List.drop_eq_getElem_cons (l := data.data.toList) hindex

private theorem drop_append (hindex : index ≤ data.size) :
    (data.data.toList ++ tail).drop index = data.data.toList.drop index ++ tail :=
  List.drop_append_of_le_length hindex

/-- A search from where all before is passed finds the end of the data, or it passes all but at most
one byte of what was fetched. -/
theorem search_passed (hindex : index ≤ data.size) (h : Passed (data.data.toList ++ tail) index) :
    (∀ stop, search data index = .found stop → stop ≤ data.size ∧
      extent (data.data.toList ++ tail) = data.data.toList.take stop) ∧
    ∀ next, search data index = .resume next → next ≤ data.size ∧
      Passed (data.data.toList ++ tail) next ∧
      extent (data.data.toList.drop next) = data.data.toList.drop next := by
  have hlength : (data.data.toList ++ tail).length = data.size + tail.length := List.length_append
  fun_induction search data index with
  | case1 index hlt hother ih =>
    refine ih hlt (h.succ (by omega) ?_)
    rw [drop_append hindex, drop_toList hlt]
    exact endsAt_cons_of_ne (by simpa using hother) _
  | case2 index hlt hff hmore hgo ih =>
    have hmarker : data[index] = 0xFF := by simpa using hff
    refine ih hlt (h.succ (by omega) ?_)
    rw [drop_append hindex, drop_toList hlt, drop_toList hmore, hmarker]
    exact (endsAt_marker _ _).trans (by rw [hgo]; rfl)
  | case3 index hlt hff hmore hend =>
    refine ⟨fun stop hstop => ?_, fun next hnext => (nomatch hnext)⟩
    have hmarker : data[index] = 0xFF := by simpa using hff
    obtain rfl := Search.found.inj hstop
    refine ⟨hindex, ?_⟩
    rw [h.extent_eq, List.take_append_of_le_length hindex]
    rw [drop_append hindex, drop_toList hlt, drop_toList hmore, hmarker]
    exact (endsAt_marker _ _).trans (by simpa using hend)
  | case4 index hlt hff hlast =>
    refine ⟨fun stop hstop => (nomatch hstop), fun next hnext => ?_⟩
    obtain rfl := Search.resume.inj hnext
    refine ⟨hindex, h, ?_⟩
    rw [drop_toList hlt, List.drop_eq_nil_of_le (Nat.le_of_not_lt hlast)]
    rfl
  | case5 index hend =>
    refine ⟨fun stop hstop => (nomatch hstop), fun next hnext => ?_⟩
    obtain rfl := Search.resume.inj hnext
    refine ⟨hindex, h, ?_⟩
    rw [List.drop_eq_nil_of_le (Nat.le_of_not_lt hend)]
    rfl

variable {source : Source} {content : List UInt8}

/-- A chunk is the next part of what is left. -/
theorem append_chunk (h : source.Holds content) {position count : Nat} {chunk : ByteArray}
    (hread : source.read position count = .ok chunk) :
    (data ++ chunk).data.toList ++ content.drop (position + count) =
      data.data.toList ++ content.drop position := by
  obtain ⟨hsize, _, rest, hrest⟩ := h.read_iff.mp hread
  have hlength : chunk.data.toList.length = count := hsize
  rw [ByteArray.data_append, Array.toList_append, List.append_assoc, ← List.drop_drop, ← hrest,
    ← hlength, List.drop_left]

/-- With one more chunk, of whatever size, the end of the data is found, or the search is again
where all before is passed and at most one byte is left. -/
theorem search_chunk (h : source.Holds content) {position count : Nat} {chunk : ByteArray}
    (hread : source.read position count = .ok chunk) (hindex : index ≤ data.size)
    (hpassed : Passed (data.data.toList ++ content.drop position) index) :
    (∀ stop, search (data ++ chunk) index = .found stop →
      (data ++ chunk).extract 0 stop =
        ⟨(extent (data.data.toList ++ content.drop position)).toArray⟩) ∧
    ∀ next, search (data ++ chunk) index = .resume next → next ≤ (data ++ chunk).size ∧
      Passed ((data ++ chunk).data.toList ++ content.drop (position + count)) next ∧
      extent ((data ++ chunk).data.toList.drop next) = (data ++ chunk).data.toList.drop next := by
  have hmore : index ≤ (data ++ chunk).size := by
    rw [show (data ++ chunk).size = data.size + chunk.size from ByteArray.size_append]
    omega
  rw [← append_chunk h hread] at hpassed ⊢
  obtain ⟨hfound, hresume⟩ := search_passed hmore hpassed
  refine ⟨fun stop hstop => ?_, hresume⟩
  rw [(hfound stop hstop).2]
  ext1
  rw [ByteArray.data_extract, ← Array.toList_inj, Array.toList_extract, List.extract_eq_take_drop]
  rfl

/-- Fetching goes on to the end of the data, wherever the chunks are cut. -/
theorem readFrom_eq (h : source.Holds content) {position : Nat} (hindex : index ≤ data.size)
    (hpassed : Passed (data.data.toList ++ content.drop position) index)
    (hrest : extent (data.data.toList.drop index) = data.data.toList.drop index) :
    readFrom source position data index =
      .ok ⟨(extent (data.data.toList ++ content.drop position)).toArray⟩ := by
  fun_induction readFrom source position data index with
  | case1 position data index hlt count e hread =>
    obtain ⟨bytes, hbytes, _⟩ := h.read_eq position count (by rw [← h.length_eq]; omega)
    rw [hread] at hbytes
    cases hbytes
  | case2 position data index hlt count chunk hread more stop hstop =>
    rw [(search_chunk h hread hindex hpassed).1 stop hstop]
  | case3 position data index hlt count chunk hread more next hnext ih =>
    obtain ⟨hle, hpassed, hrest⟩ := (search_chunk h hread hindex hpassed).2 next hnext
    rw [← append_chunk h hread]
    exact ih hle hpassed hrest
  | case4 position data index hend =>
    rw [h.length_eq] at hend
    rw [List.drop_eq_nil_of_le (Nat.le_of_not_lt hend), List.append_nil] at hpassed ⊢
    rw [hpassed, hrest, List.take_append_drop]

/-- What is read is the data with which the rest of the source begins. -/
theorem read_eq (h : source.Holds content) (offset : Nat) :
    read source offset = .ok ⟨(extent (content.drop offset)).toArray⟩ :=
  readFrom_eq h (Nat.zero_le _) (passed_zero _) rfl

end ImageAudit.Jpeg.EntropyData
