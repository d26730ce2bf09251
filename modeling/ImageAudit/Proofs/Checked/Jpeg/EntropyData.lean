import ImageAudit.Jpeg.EntropyData
import ImageAudit.Proofs.Checked.Input

/-! Fetching entropy-coded data with operations that can go wrong. Every turn of the search moves on
to behind an `0xFF`, and every chunk that is fetched ends inside the source. -/
namespace ImageAudit.Jpeg.EntropyData

open Checked

def checkedSearch (data : ByteArray) : (turns index : Nat) → Checked Search
  | 0, _ => throw .endless
  | turns + 1, index => do
    let tail ← slice data index data.size
    match tail.data.toList.findIdx? (· == 0xFF) with
    | none => pure (.resume data.size)
    | some distance => do
      let place ← add maxWord index distance
      let following ← add maxWord place 1
      match data.data.toList[following]? with
      | none => pure (.resume place)
      | some second =>
        if continues second then checkedSearch data turns following else pure (.found place)

def checkedReadFrom (input : Input) : (turns position : Nat) → (data : ByteArray) →
    (index : Nat) → Checked (Except ReadError ByteArray)
  | 0, _, _, _ => throw .endless
  | turns + 1, position, data, index =>
    if position < input.source.length then do
      let left ← sub input.source.length position
      let count := min left chunkSize
      match ← input.read position count with
      | .error e => pure (.error e)
      | .ok chunk => do
        let data := data ++ chunk
        let position ← add maxWord position count
        match ← checkedSearch data (data.size + 1) index with
        | .found stop => pure (.ok (data.extract 0 stop))
        | .resume index => checkedReadFrom input turns position data index
    else pure (.ok data)

def checkedRead (input : Input) (offset : Nat) : Checked (Except ReadError ByteArray) :=
  checkedReadFrom input (input.source.length + 1) offset .empty 0

variable {data : ByteArray} {index : Nat}

private theorem getElem?_toList {i : Nat} (hi : i < data.size) :
    data.data.toList[i]? = some data[i] :=
  List.getElem?_eq_getElem hi

/-- Bytes other than `0xFF` are passed over. -/
private theorem search_skip {distance : Nat} (hle : index + distance ≤ data.size)
    (h : ∀ i < distance, data.data.toList[index + i]? ≠ some 0xFF) :
    search data index = search data (index + distance) := by
  induction distance generalizing index with
  | zero => rfl
  | succ distance ih =>
    have hlt : index < data.size := by omega
    have hfirst := h 0 (Nat.succ_pos distance)
    rw [Nat.add_zero, getElem?_toList hlt] at hfirst
    have hrest : ∀ i < distance, data.data.toList[index + 1 + i]? ≠ some 0xFF := by
      intro i hi
      rw [Nat.add_right_comm]
      exact h (i + 1) (Nat.succ_lt_succ hi)
    rw [search, dif_pos hlt, if_pos (by simpa using hfirst), ih (by omega) hrest]
    congr 1
    omega

private theorem search_end : search data data.size = .resume data.size := by
  rw [search, dif_neg (Nat.lt_irrefl _)]

/-- A search ends inside the data. -/
theorem resume_le (hindex : index ≤ data.size) {stop : Nat}
    (h : search data index = .resume stop) : stop ≤ data.size := by
  fun_induction search data index with
  | case1 index hlt _ ih => exact ih hlt h
  | case2 index hlt _ hnext _ ih => exact ih (Nat.le_of_lt hnext) h
  | case3 => cases h
  | case4 index hlt =>
    obtain rfl := Search.resume.inj h
    exact Nat.le_of_lt hlt
  | case5 =>
    obtain rfl := Search.resume.inj h
    exact hindex

private theorem toList_tail (data : ByteArray) (index : Nat) :
    (data.extract index data.size).data.toList = data.data.toList.drop index := by
  rw [ByteArray.data_extract, Array.toList_extract, List.extract_eq_take_drop]
  apply List.take_of_length_le
  rw [List.length_drop]
  exact Nat.le_refl _

/-- Without another `0xFF` the search passes over all that is left. -/
private theorem search_of_noMarker (hindex : index ≤ data.size)
    (hfind : (data.data.toList.drop index).findIdx? (· == 0xFF) = none) :
    search data index = .resume data.size := by
  have hnone : ∀ i < data.size - index, data.data.toList[index + i]? ≠ some 0xFF := by
    intro i _ hff
    rw [← List.getElem?_drop] at hff
    have hnot := List.findIdx?_eq_none_iff.mp hfind _ (List.mem_of_getElem? hff)
    simp at hnot
  rw [search_skip (by omega) hnone, Nat.add_sub_cancel' hindex, search_end]

/-- The search goes on at the first `0xFF`. -/
private theorem search_of_marker {distance : Nat}
    (hfind : (data.data.toList.drop index).findIdx? (· == 0xFF) = some distance) :
    ∃ hplace : index + distance < data.size,
      data[index + distance] = 0xFF ∧ search data index = search data (index + distance) := by
  obtain ⟨hlt, hff, hbefore⟩ := List.findIdx?_eq_some_iff_getElem.mp hfind
  have hnone : ∀ i < distance, data.data.toList[index + i]? ≠ some 0xFF := by
    intro i hi hff
    rw [← List.getElem?_drop] at hff
    obtain ⟨_, hvalue⟩ := List.getElem?_eq_some_iff.mp hff
    exact hbefore i hi (by rw [hvalue]; rfl)
  rw [List.length_drop] at hlt
  rw [List.getElem_drop] at hff
  have hlength : data.data.toList.length = data.size := rfl
  have hplace : index + distance < data.size := by omega
  exact ⟨hplace, eq_of_beq hff, search_skip (Nat.le_of_lt hplace) hnone⟩

theorem checkedSearch_eq {turns : Nat} (hindex : index ≤ data.size)
    (hturns : data.size < index + turns) (hsize : data.size < maxWord) :
    checkedSearch data turns index = pure (search data index) := by
  induction turns generalizing index with
  | zero => omega
  | succ turns ih =>
    rw [checkedSearch, slice_eq hindex (Nat.le_refl _), pure_bind, toList_tail]
    cases hfind : (data.data.toList.drop index).findIdx? (· == 0xFF) with
    | none => rw [search_of_noMarker hindex hfind]
    | some distance =>
      obtain ⟨hplace, hmarker, hskip⟩ := search_of_marker hfind
      dsimp only
      rw [add_eq (by omega), pure_bind, add_eq (by omega), pure_bind, hskip, search,
        dif_pos hplace, hmarker, if_neg (show ¬ ((0xFF : UInt8) != 0xFF) = true by decide)]
      cases hsecond : data.data.toList[index + distance + 1]? with
      | none =>
        have hend : data.size ≤ index + distance + 1 := List.getElem?_eq_none_iff.mp hsecond
        rw [dif_neg (Nat.not_lt.mpr hend)]
      | some second =>
        have hmore : index + distance + 1 < data.size :=
          (List.getElem?_eq_some_iff.mp hsecond).1
        rw [getElem?_toList hmore] at hsecond
        obtain rfl := Option.some.inj hsecond
        rw [dif_pos hmore]
        dsimp only
        split
        · exact ih (Nat.le_of_lt hmore) (by omega)
        · rfl

theorem checkedReadFrom_eq {input : Input} (h : input.Valid) {turns position : Nat}
    (hposition : position ≤ input.source.length) (hturns : input.source.length < position + turns)
    (hdata : data.size ≤ position) (hindex : index ≤ data.size) :
    checkedReadFrom input turns position data index =
      pure (readFrom input.source position data index) := by
  have hlength := h.length_lt_maxWord
  induction turns generalizing position data index with
  | zero => omega
  | succ turns ih =>
    rw [checkedReadFrom, readFrom]
    by_cases hlt : position < input.source.length
    · rw [if_pos hlt, dif_pos hlt, sub_eq (Nat.le_of_lt hlt), pure_bind]
      have hchunk : 0 < chunkSize := by decide
      have hcount : min (input.source.length - position) chunkSize ≤
          input.source.length - position := Nat.min_le_left _ _
      dsimp only
      rw [Input.read_eq h, pure_bind]
      cases hread : input.source.read position
          (min (input.source.length - position) chunkSize) with
      | error e => rfl
      | ok chunk =>
        have hsize := Source.size_read hread
        have happend : (data ++ chunk).size = data.size + chunk.size := ByteArray.size_append
        dsimp only
        rw [add_eq (by omega), pure_bind, checkedSearch_eq (by omega) (by omega) (by omega),
          pure_bind]
        cases hsearch : search (data ++ chunk) index with
        | found stop => rfl
        | resume next =>
          have hnext := resume_le (by omega) hsearch
          exact ih (by omega) (by omega) (by omega) hnext
    · rw [if_neg hlt, dif_neg hlt]

theorem checkedRead_eq {input : Input} (h : input.Valid) {offset : Nat}
    (hoffset : offset ≤ input.source.length) :
    checkedRead input offset = pure (read input.source offset) :=
  checkedReadFrom_eq h hoffset (by omega) (Nat.zero_le _) (Nat.zero_le _)

/-- What is fetched ends inside the source. -/
theorem size_le_of_readFrom {source : Source} {position : Nat} {found : ByteArray}
    (h : readFrom source position data index = .ok found) :
    found.size ≤ data.size + (source.length - position) := by
  fun_induction readFrom source position data index with
  | case1 => cases h
  | case2 position data index hlt count chunk hchunk more stop hstop =>
    obtain rfl := Except.ok.inj h
    have hsize := Source.size_read hchunk
    have hle := Nat.min_le_left (source.length - position) chunkSize
    have happend : more.size = data.size + chunk.size := ByteArray.size_append
    rw [ByteArray.size_extract]
    omega
  | case3 position data index hlt count chunk hchunk more next hnext ih =>
    have hfound := ih h
    have hsize := Source.size_read hchunk
    have hle := Nat.min_le_left (source.length - position) chunkSize
    have happend : more.size = data.size + chunk.size := ByteArray.size_append
    omega
  | case4 =>
    obtain rfl := Except.ok.inj h
    exact Nat.le_add_right _ _

end ImageAudit.Jpeg.EntropyData
