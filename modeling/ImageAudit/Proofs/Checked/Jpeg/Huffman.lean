import ImageAudit.Proofs.Checked.Operation
import ImageAudit.Proofs.Jpeg.Huffman.Codebook

/-! Huffman tables, built and looked into with operations that can go wrong. Counters and codes have
a width, and a code is looked up through arrays of the smallest code, the largest code and the first
symbol of each length. A code is stored in sixteen bits as soon as it is assigned, before it is
known whether the codes of its length are too many. A code that is cut off there is thrown away with
all others; those that are kept lost nothing. -/
namespace ImageAudit.Jpeg.Huffman

open Checked

def checkedTotal (counts : List Nat) : Checked Nat := counts.foldlM (add maxWord) 0

def checkedSizes (counts : List Nat) : Checked (List Nat) := do
  let sizes ← counts.zipIdx.mapM fun (count, i) => do
    let size ← add maxByte i 1
    pure (List.replicate count size)
  pure sizes.flatten

/-- Gives consecutive codes to the symbols of `length` bits from `index` on, and stores what
`narrow` makes of them. -/
def checkedRange (narrow : Nat → Checked Nat) (sizes : List Nat) (length : Nat) :
    (turns index code : Nat) → Checked (Nat × Nat × List Nat)
  | 0, _, _ => throw .endless
  | turns + 1, index, code =>
    if index < sizes.length then do
      let size ← get sizes[index]?
      if size = length then do
        let stored ← narrow code
        let next ← add maxLong code 1
        let following ← add maxWord index 1
        let (stop, after, codes) ← checkedRange narrow sizes length turns following next
        pure (stop, after, stored :: codes)
      else pure (index, code, [])
    else pure (index, code, [])

/-- Assigns codes from `length` bits on. Whether a length has room for its codes is looked at after
they were stored. -/
def checkedAssign (narrow : Nat → Checked Nat) (sizes : List Nat) :
    (lengths length index code : Nat) → Checked (Except BuildError (List Nat))
  | 0, _, _, _ => pure (.ok [])
  | lengths + 1, length, index, code => do
    let (stop, after, codes) ← checkedRange narrow sizes length (sizes.length + 1) index code
    let limit ← power 32 length
    if limit ≤ after then pure (.error (.invalidCodeLengths length))
    else do
      let next ← mul maxLong after 2
      let rest ← checkedAssign narrow sizes lengths (length + 1) stop next
      pure (rest.map (codes ++ ·))

structure Lookup where
  least : List Int
  most : List Int
  start : List Nat

def checkedFill (counts codes : List Nat) : (lengths length j : Nat) → Lookup → Checked Lookup
  | 0, _, _, arrays => pure arrays
  | lengths + 1, length, j, arrays => do
    let place ← sub length 1
    let count ← get counts[place]?
    if count = 0 then checkedFill counts codes lengths (length + 1) j arrays
    else do
      let start ← set arrays.start length j
      let first ← get codes[j]?
      let least ← set arrays.least length first
      let next ← add maxWord j count
      let back ← sub next 1
      let last ← get codes[back]?
      let most ← set arrays.most length last
      checkedFill counts codes lengths (length + 1) next ⟨least, most, start⟩

namespace Table

def checkedLookup (counts codes : List Nat) : Checked Lookup :=
  checkedFill counts codes maxLength 1 0
    ⟨List.replicate (maxLength + 1) 0, List.replicate (maxLength + 1) (-1),
      List.replicate (maxLength + 1) 0⟩

/-- Builds a table. Its arrays are filled in here; where a code is looked up they are the same. -/
def checkedBuild (narrow : Nat → Checked Nat) (tableClass id : Nat) (counts : List Nat)
    (symbols : Array UInt8) : Checked (Except BuildError Table) := do
  let count ← checkedTotal counts
  if maxSymbols < count then pure (.error (.tooManyCodes count))
  else do
    let sizes ← checkedSizes counts
    let codes ← checkedAssign narrow sizes maxLength 1 0 0
    match codes with
    | .error e => pure (.error e)
    | .ok codes => do
      let _ ← checkedLookup counts codes
      pure (.ok ⟨tableClass, id, counts, symbols, sizes, codes, (Huffman.groups counts).toArray⟩)

def checkedMaxCode (t : Table) (length : Nat) : Checked Int := do
  let arrays ← checkedLookup t.counts t.codes
  pure (arrays.most[length]?.getD (-1))

def checkedSymbol? (t : Table) (length : Nat) (code : Int) : Checked (Option UInt8) := do
  let arrays ← checkedLookup t.counts t.codes
  if length = 0 ∨ maxLength < length then pure none
  else do
    let most ← get arrays.most[length]?
    if most < code then pure none
    else do
      let least ← get arrays.least[length]?
      let distance ← fitSigned signedLong (code - least)
      if distance < 0 then pure none
      else do
        let start ← get arrays.start[length]?
        let i ← add maxWord start distance.toNat
        pure t.symbols[i]?

end Table

private theorem foldlM_add {counts : List Nat} {n : Nat} (h : n + total counts ≤ maxWord) :
    counts.foldlM (add maxWord) n = pure (n + total counts) := by
  induction counts generalizing n with
  | nil => rfl
  | cons count counts ih =>
    change n + (count + total counts) ≤ maxWord at h
    rw [List.foldlM_cons, add_eq (by omega), pure_bind, ih (by omega), Nat.add_assoc]
    rfl

theorem checkedTotal_eq {counts : List Nat} (h : total counts ≤ maxWord) :
    checkedTotal counts = pure (total counts) := by
  rw [checkedTotal, foldlM_add (by omega), Nat.zero_add]

theorem checkedSizes_eq {counts : List Nat} (h : counts.length ≤ maxByte) :
    checkedSizes counts = pure (sizes counts) := by
  have hsizes : ∀ entry ∈ counts.zipIdx, (do
      let size ← add maxByte entry.2 1
      pure (List.replicate entry.1 size) : Checked (List Nat)) =
        pure (List.replicate entry.1 (entry.2 + 1)) := by
    intro entry hmem
    have hplace := List.snd_lt_of_mem_zipIdx hmem
    rw [add_eq (by omega), pure_bind]
  rw [checkedSizes, mapM_eq hsizes, pure_bind]
  rfl

private def alike (sizes : List Nat) (length index : Nat) : Nat :=
  ((sizes.drop index).takeWhile (· == length)).length

private theorem alike_le {sizes : List Nat} {length index : Nat} (h : index ≤ sizes.length) :
    index + alike sizes length index ≤ sizes.length := by
  have hle := (List.takeWhile_prefix (· == length) (l := sizes.drop index)).length_le
  rw [List.length_drop] at hle
  rw [alike]
  omega

/-- A turn is taken for every symbol of the length, and one more. -/
private theorem checkedRange_eq {sizes : List Nat} {length turns index code : Nat}
    (hindex : index ≤ sizes.length) (hturns : sizes.length < index + turns)
    (hcode : code + sizes.length ≤ index + maxLong) (hsizes : sizes.length ≤ maxWord) :
    checkedRange (cut maxHalf) sizes length turns index code =
      pure (index + alike sizes length index, code + alike sizes length index,
        (List.range' code (alike sizes length index)).map (· % (maxHalf + 1))) := by
  induction turns generalizing index code with
  | zero => omega
  | succ turns ih =>
    rw [checkedRange, alike]
    by_cases hlt : index < sizes.length
    · rw [if_pos hlt, List.drop_eq_getElem_cons hlt, List.getElem?_eq_getElem hlt, get_some,
        pure_bind]
      by_cases hsame : sizes[index] = length
      · have hnext := @ih (index + 1) (code + 1) hlt (by omega) (by omega)
        rw [if_pos hsame, cut, pure_bind, add_eq (by omega), pure_bind, add_eq (by omega),
          pure_bind, hnext, pure_bind, List.takeWhile_cons_of_pos (by simpa using hsame),
          List.length_cons, List.range'_succ, List.map_cons, ← alike, Nat.add_right_comm index,
          Nat.add_right_comm code]
        rfl
      · rw [if_neg hsame, List.takeWhile_cons_of_neg (by simpa using hsame)]
        rfl
    · rw [if_neg hlt, List.drop_eq_nil_of_le (Nat.le_of_not_lt hlt)]
      rfl

/-- Codes of any length fit sixteen bits. -/
theorem one_shiftLeft_le {length : Nat} (h : length ≤ maxLength) :
    1 <<< length ≤ 0x10000 := by
  rw [Nat.shiftLeft_eq, Nat.one_mul]
  exact Nat.pow_le_pow_right (by decide) h

/-- Where a length has room for its codes, they fit sixteen bits. -/
theorem checkedAssign_eq {sizes : List Nat} {lengths length index code : Nat}
    (hsizes : sizes.length ≤ maxSymbols) (hlengths : length + lengths ≤ maxLength + 1)
    (hindex : index ≤ sizes.length) (hcode : code < 1 <<< length) :
    checkedAssign (cut maxHalf) sizes lengths length index code =
      pure (assign lengths length code (sizes.drop index)) := by
  induction lengths generalizing length index code with
  | zero => rfl
  | succ lengths ih =>
    have hlimit := one_shiftLeft_le (show length ≤ maxLength by omega)
    have hbits : maxLength = 16 := rfl
    have hmost : maxSymbols = 256 := rfl
    have hlong : maxLong = 0xFFFFFFFF := rfl
    have hword : maxWord = 0xFFFFFFFFFFFFFFFF := rfl
    rw [checkedAssign, checkedRange_eq hindex (by omega) (by omega) (by omega), pure_bind]
    dsimp only
    rw [power_eq (by omega), pure_bind, assign, ← alike]
    split
    · rfl
    · next hfits =>
      have hnext : (code + alike sizes length index) * 2 < 1 <<< (length + 1) := by
        rw [Nat.shiftLeft_succ]
        omega
      have hhalf : maxHalf = 0xFFFF := rfl
      have hkept : ∀ n ∈ List.range' code (alike sizes length index), n % (maxHalf + 1) = id n := by
        intro n hmem
        have hn := (List.mem_range'_1.mp hmem).2
        exact Nat.mod_eq_of_lt (by omega)
      rw [mul_eq (by omega), pure_bind, ih (by omega) (alike_le hindex) hnext, pure_bind,
        List.drop_drop, Nat.mul_comm _ 2, List.map_congr_left hkept, List.map_id]

/-- As long as the codes behind them fit sixteen bits, codes could as well be stored by an operation
that faults where it would cut them off. -/
private theorem checkedRange_of_cut {sizes codes : List Nat}
    {length turns index code stop after : Nat}
    (h : checkedRange (cut maxHalf) sizes length turns index code = pure (stop, after, codes))
    (hafter : after ≤ maxHalf + 1) :
    code ≤ after ∧
      checkedRange (fit maxHalf) sizes length turns index code = pure (stop, after, codes) := by
  induction turns generalizing index code codes with
  | zero => cases h
  | succ turns ih =>
    rw [checkedRange] at h ⊢
    split at h
    · next hindex =>
      rw [if_pos hindex]
      obtain ⟨size, hsize, h⟩ := bind_eq_pure.mp h
      rw [hsize, pure_bind]
      split at h
      · next hsame =>
        rw [if_pos hsame]
        obtain ⟨stored, hstored, h⟩ := bind_eq_pure.mp h
        obtain ⟨next, hnext, h⟩ := bind_eq_pure.mp h
        obtain ⟨following, hfollowing, h⟩ := bind_eq_pure.mp h
        obtain ⟨⟨_, _, rest⟩, hrest, h⟩ := bind_eq_pure.mp h
        cases h
        obtain ⟨hle, hrest⟩ := ih hrest
        have hcode : next = code + 1 := by
          rw [add, fit] at hnext
          split at hnext <;> cases hnext
          rfl
        have hlow : code % (maxHalf + 1) = code := Nat.mod_eq_of_lt (by omega)
        obtain rfl : code % (maxHalf + 1) = stored := Except.ok.inj hstored
        refine ⟨by omega, ?_⟩
        rw [fit_eq (by omega), pure_bind, hnext, pure_bind, hfollowing, pure_bind, hrest,
          pure_bind, hlow]
      · next hother =>
        cases h
        exact ⟨Nat.le_refl _, if_neg hother⟩
    · next hindex =>
      cases h
      exact ⟨Nat.le_refl _, if_neg hindex⟩

/-- Codes that are kept lost nothing when they were stored. -/
theorem checkedAssign_of_cut {sizes codes : List Nat} {lengths length index code : Nat}
    (hlengths : length + lengths ≤ maxLength + 1)
    (h : checkedAssign (cut maxHalf) sizes lengths length index code = pure (.ok codes)) :
    checkedAssign (fit maxHalf) sizes lengths length index code = pure (.ok codes) := by
  induction lengths generalizing length index code codes with
  | zero => exact h
  | succ lengths ih =>
    have hbits := one_shiftLeft_le (show length ≤ maxLength by omega)
    have hhalf : maxHalf = 0xFFFF := rfl
    have hmost : maxLength = 16 := rfl
    rw [checkedAssign] at h ⊢
    obtain ⟨⟨stop, after, range⟩, hrange, h⟩ := bind_eq_pure.mp h
    dsimp only at h
    rw [power_eq (by omega), pure_bind] at h
    split at h
    · cases h
    · next hfits =>
      obtain ⟨next, hnext, h⟩ := bind_eq_pure.mp h
      obtain ⟨rest, hrest, h⟩ := bind_eq_pure.mp h
      cases rest with
      | error e => cases h
      | ok rest =>
        rw [(checkedRange_of_cut hrange (by omega)).2, pure_bind]
        dsimp only
        rw [power_eq (by omega), pure_bind, if_neg hfits, hnext, pure_bind,
          ih (by omega) hrest, pure_bind]
        exact h

private def column {α : Type} (blank : α) (entry : Group → α) (groups : List Group) (left : Nat) :
    List α :=
  blank ::
    ((groups.map fun g => if g.count = 0 then blank else entry g) ++ List.replicate left blank)

section Column

variable {α : Type} {blank : α} {entry : Group → α} {groups : List Group} {g : Group} {left : Nat}

private theorem column_of_empty (h : g.count = 0) :
    column blank entry groups (left + 1) = column blank entry (groups ++ [g]) left := by
  simp [column, h, List.replicate_succ]

private theorem set_column (h : g.count ≠ 0) :
    set (column blank entry groups (left + 1)) (groups.length + 1) (entry g) =
      pure (column blank entry (groups ++ [g]) left) := by
  rw [set_eq (by simp [column])]
  simp [column, h, List.replicate_succ]

private theorem getElem?_column (m : Nat) :
    (column blank entry groups 0)[m + 1]? =
      groups[m]?.map fun g => if g.count = 0 then blank else entry g := by
  rw [column, List.getElem?_cons_succ, List.replicate_zero, List.append_nil, List.getElem?_map]

end Column

private def Lookup.ofGroups (groups : List Group) (left : Nat) : Lookup where
  least := column 0 (fun g => (g.first : Int)) groups left
  most := column (-1) (fun g => ((g.first + g.count - 1 : Nat) : Int)) groups left
  start := column 0 Group.start groups left

/-- One turn enters the group `g`, whose codes stand where they are looked for. -/
private theorem checkedFill_group {all codes : List Nat} {groups : List Group} {g : Group}
    {lengths : Nat} (hcount : all[groups.length]? = some g.count)
    (hat : ∀ i < g.count, codes[g.start + i]? = some (g.first + i))
    (hcodes : codes.length ≤ maxWord) :
    checkedFill all codes (lengths + 1) (groups.length + 1) g.start
        (.ofGroups groups (lengths + 1)) =
      checkedFill all codes lengths (groups.length + 2) (g.start + g.count)
        (.ofGroups (groups ++ [g]) lengths) := by
  rw [checkedFill, sub_eq (by omega), pure_bind, Nat.add_sub_cancel, hcount, get_some, pure_bind]
  by_cases hzero : g.count = 0
  · have hskip : Lookup.ofGroups groups (lengths + 1) = .ofGroups (groups ++ [g]) lengths := by
      simp only [Lookup.ofGroups, column_of_empty hzero]
    rw [if_pos hzero, hskip, hzero]
    rfl
  · have hfirst : codes[g.start]? = some g.first := hat 0 (by omega)
    have hlast := hat (g.count - 1) (by omega)
    have hback : g.start + g.count - 1 = g.start + (g.count - 1) := by omega
    have hmost : g.first + (g.count - 1) = g.first + g.count - 1 := by omega
    have hend := (List.getElem?_eq_some_iff.mp hlast).1
    have hplace : ∀ {α : Type} (blank : α) (entry : Group → α),
        set (column blank entry groups (lengths + 1)) (groups.length + 1) (entry g) =
          pure (column blank entry (groups ++ [g]) lengths) :=
      fun _ _ => set_column hzero
    rw [if_neg hzero, Lookup.ofGroups, hplace 0 Group.start, pure_bind, hfirst, get_some,
      pure_bind, hplace 0 fun g => (g.first : Int), pure_bind, add_eq (by omega), pure_bind,
      sub_eq (by omega), pure_bind, hback, hlast, get_some, pure_bind, hmost,
      hplace (-1) fun g => ((g.first + g.count - 1 : Nat) : Int), pure_bind]
    rfl

/-- Each group of codes is entered in turn. -/
private theorem checkedFill_eq {all codes counts : List Nat} {groups : List Group}
    {k first j : Nat} (hall : all.drop k = counts) (hgroups : groups.length = k)
    (hassign : assign counts.length (k + 1) first (sizesFrom k counts) = .ok (codes.drop j))
    (hcodes : codes.length ≤ maxWord) :
    checkedFill all codes counts.length (k + 1) j (.ofGroups groups counts.length) =
      pure (.ofGroups (groups ++ groupsFrom first j counts) 0) := by
  induction counts generalizing groups k first j with
  | nil => rw [groupsFrom, List.append_nil]; rfl
  | cons count counts ih =>
    obtain ⟨_, rest, hdrop, hrest⟩ := assign_sizesFrom hassign
    subst hgroups
    let g : Group := ⟨count, first, j⟩
    have hcount : all[groups.length]? = some g.count := by
      rw [← Nat.add_zero groups.length, ← List.getElem?_drop, hall]
      rfl
    have hat : ∀ i < g.count, codes[g.start + i]? = some (g.first + i) := by
      intro i hi
      rw [← List.getElem?_drop, hdrop, List.getElem?_append_left (by simpa using hi),
        List.getElem?_range' hi, Nat.one_mul]
    have hall' : all.drop (groups.length + 1) = counts := by
      rw [← List.drop_drop, hall]
      rfl
    have hrest' : codes.drop (j + count) = rest := by
      rw [← List.drop_drop, hdrop, List.drop_left' List.length_range']
    have hlength : (groups ++ [g]).length = groups.length + 1 := List.length_append
    have hnext := ih hall' hlength (hrest' ▸ hrest)
    rw [List.append_assoc] at hnext
    exact (checkedFill_group hcount hat hcodes).trans hnext

private theorem start_le_of_mem_groupsFrom {code start : Nat} {counts : List Nat} {g : Group}
    (h : g ∈ groupsFrom code start counts) : g.start + g.count ≤ start + total counts := by
  induction counts generalizing code start with
  | nil => cases h
  | cons count counts ih =>
    change g.start + g.count ≤ start + (count + total counts)
    rcases List.mem_cons.mp h with rfl | h
    · simp
    · have hle := ih h
      omega

namespace Table

structure Canonical (t : Table) : Prop where
  length : t.counts.length = maxLength
  total_le : total t.counts ≤ maxSymbols
  codes_eq : Huffman.codes (Huffman.sizes t.counts) = .ok t.codes
  groups_eq : t.groups = (Huffman.groups t.counts).toArray

private theorem checkedLookup_eq {counts codes : List Nat} (hlength : counts.length = maxLength)
    (htotal : total counts ≤ maxSymbols)
    (hcodes : Huffman.codes (Huffman.sizes counts) = .ok codes) :
    checkedLookup counts codes = pure (.ofGroups (Huffman.groups counts) 0) := by
  have hmost : maxSymbols ≤ maxWord := by decide
  have hassign : assign counts.length (0 + 1) 0 (sizesFrom 0 counts) = .ok (codes.drop 0) := by
    rw [hlength]
    exact hcodes
  have hlen : codes.length = total counts :=
    (length_codes_of_assign hassign).trans (length_sizesFrom 0 counts)
  have hfill := @checkedFill_eq counts codes counts [] 0 0 0 rfl rfl hassign (by omega)
  rw [hlength] at hfill
  exact hfill

theorem checkedBuild_eq {tableClass id : Nat} {counts : List Nat} {symbols : Array UInt8}
    (hlength : counts.length = maxLength) (hcounts : total counts ≤ maxWord) :
    checkedBuild (cut maxHalf) tableClass id counts symbols =
      pure (build tableClass id counts symbols) := by
  rw [checkedBuild, checkedTotal_eq hcounts, pure_bind, build]
  split
  · rfl
  · next htotal =>
    have hsizes : (Huffman.sizes counts).length ≤ maxSymbols :=
      (length_sizesFrom 0 counts).symm ▸ Nat.le_of_not_lt htotal
    have hassign : checkedAssign (cut maxHalf) (Huffman.sizes counts) maxLength 1 0 0 =
        pure (Huffman.codes (Huffman.sizes counts)) :=
      checkedAssign_eq hsizes (by decide) (Nat.zero_le _) (by decide)
    rw [checkedSizes_eq (by rw [hlength]; decide), pure_bind, hassign, pure_bind]
    dsimp only
    cases hcodes : Huffman.codes (Huffman.sizes counts) with
    | error e => rfl
    | ok codes =>
      dsimp only
      rw [checkedLookup_eq hlength (Nat.le_of_not_lt htotal) hcodes, pure_bind]
      rfl

/-- A table that is built has the codes that were assigned, with all their bits. -/
theorem checkedBuild_of_cut {tableClass id : Nat} {counts : List Nat} {symbols : Array UInt8}
    {t : Table} (h : checkedBuild (cut maxHalf) tableClass id counts symbols = pure (.ok t)) :
    checkedBuild (fit maxHalf) tableClass id counts symbols = pure (.ok t) := by
  rw [checkedBuild] at h ⊢
  obtain ⟨count, hcount, h⟩ := bind_eq_pure.mp h
  rw [hcount, pure_bind]
  split at h
  · cases h
  · next hfew =>
    obtain ⟨sizes, hsizes, h⟩ := bind_eq_pure.mp h
    obtain ⟨assigned, hassigned, h⟩ := bind_eq_pure.mp h
    cases assigned with
    | error e => cases h
    | ok codes =>
      rw [if_neg hfew, hsizes, pure_bind, checkedAssign_of_cut (by decide) hassigned,
        pure_bind]
      exact h

theorem canonical_of_build {tableClass id : Nat} {counts : List Nat} {symbols : Array UInt8}
    {t : Table} (hlength : counts.length = maxLength)
    (h : build tableClass id counts symbols = .ok t) : t.Canonical := by
  obtain ⟨htotal, codes, hcodes, rfl⟩ := eq_of_build h
  exact ⟨hlength, htotal, hcodes, rfl⟩

variable {t : Table}

private theorem Canonical.group?_eq (h : t.Canonical) (m : Nat) :
    t.group? (m + 1) = (Huffman.groups t.counts)[m]? := by
  rw [group?, if_neg (Nat.succ_ne_zero m), Nat.add_sub_cancel, h.groups_eq, List.getElem?_toArray]

private theorem Canonical.lookup_eq (h : t.Canonical) :
    checkedLookup t.counts t.codes = pure (.ofGroups (Huffman.groups t.counts) 0) :=
  checkedLookup_eq h.length h.total_le h.codes_eq

theorem checkedMaxCode_eq (h : t.Canonical) (length : Nat) :
    t.checkedMaxCode length = pure (t.maxCode length) := by
  rw [checkedMaxCode, h.lookup_eq, pure_bind, maxCode]
  cases length with
  | zero => rfl
  | succ m =>
    rw [h.group?_eq, Lookup.ofGroups, getElem?_column]
    cases (Huffman.groups t.counts)[m]? <;> rfl

private theorem Canonical.fits (h : t.Canonical) {m : Nat} {g : Group} (hm : m < maxLength)
    (hg : (Huffman.groups t.counts)[m]? = some g) : g.first + g.count ≤ 0x10000 := by
  have hassign := h.codes_eq
  rw [Huffman.codes, ← h.length] at hassign
  have hfits : g.first + g.count < 1 <<< (0 + 1 + m) := fits_of_assign hassign hg
  have hle := one_shiftLeft_le (show 0 + 1 + m ≤ maxLength by omega)
  omega

theorem checkedSymbol?_eq (h : t.Canonical) {length code : Nat} (hcode : code < 0x80000000) :
    t.checkedSymbol? length code = pure (t.symbol? length code) := by
  rw [checkedSymbol?, h.lookup_eq, pure_bind, symbol?]
  cases length with
  | zero => rfl
  | succ m =>
    rw [h.group?_eq]
    have hlength : (Huffman.groups t.counts).length = maxLength := by
      rw [Huffman.groups, length_groupsFrom, h.length]
    by_cases hm : m < maxLength
    · rw [if_neg (by omega), Lookup.ofGroups, getElem?_column, getElem?_column, getElem?_column]
      have hg := List.getElem?_eq_getElem (hlength.symm ▸ hm)
      have hfits := h.fits hm hg
      have hstart := start_le_of_mem_groupsFrom (List.mem_of_getElem? hg)
      have htotal := h.total_le
      have hmost : maxSymbols ≤ maxByte + 1 := by decide
      rw [hg]
      generalize (Huffman.groups t.counts)[m] = g at hfits hstart ⊢
      simp only [Option.map_some, get_some, pure_bind]
      by_cases hempty : g.count = 0
      · rw [if_pos hempty, if_pos (by omega), if_neg (by omega)]
      · simp only [if_neg hempty]
        have hlong : signedLong = 0x80000000 := rfl
        by_cases hbehind : g.first + g.count ≤ code
        · rw [if_pos (by omega), if_neg (by omega)]
        · rw [if_neg (by omega), fitSigned_eq (by omega) (by omega), pure_bind]
          by_cases hbefore : code < g.first
          · rw [if_pos (by omega), if_neg (by omega)]
          · have hdistance : ((code : Int) - g.first).toNat = code - g.first := by omega
            rw [if_neg (by omega), hdistance, add_eq (by simp only [maxWord, maxByte] at *; omega),
              pure_bind, if_pos (by omega)]
    · rw [if_pos (by omega), List.getElem?_eq_none (by omega)]

end Table

end ImageAudit.Jpeg.Huffman
