import ImageAudit.Proofs.Tiff.DirectoryRules

/-! Image data. Where offsets and byte counts are words throughout, the rules for strips and tiles
are exact: they find nothing in one complete set of fields with the expected number of blocks, each
inside the file, and something in everything else. -/
namespace ImageAudit.Tiff

namespace Value

theorem word_integer {n : Nat} (h : n ≤ maxWord) : word? (.integer n) = some n := by
  have hbounds : (0 : Int) ≤ n ∧ (n : Int) ≤ (maxWord : Nat) := ⟨by omega, by omega⟩
  rw [word?, if_pos hbounds, Int.toNat_natCast]

theorem eq_integer_of_word {v : Value} {n : Nat} (h : v.word? = some n) : v = .integer n := by
  cases v with
  | real | char => cases h
  | integer m =>
    rw [word?] at h
    split at h
    · next hbounds =>
      obtain rfl := Option.some.inj h
      rw [Int.toNat_of_nonneg hbounds.1]
    · cases h

end Value

structure Field.HoldsWords (f : Field) : Prop where
  word {v : Value} : v ∈ f.values → ∃ n : Nat, n ≤ maxWord ∧ v = .integer n
  count : f.values.length = f.count

namespace Field.HoldsWords

variable {f : Field}

/-- Where all values are words none is left out, so a value and its word have the same place. -/
theorem values_eq (h : f.HoldsWords) : f.values = f.words.map fun n : Nat => .integer n := by
  have hword : ∀ v ∈ f.values, ∃ n : Nat, n ≤ maxWord ∧ v = .integer n := fun v => h.word
  rw [words]
  generalize f.values = values at hword ⊢
  induction values with
  | nil => rfl
  | cons v rest ih =>
    obtain ⟨n, hn, rfl⟩ := hword v List.mem_cons_self
    rw [List.filterMap_cons_some (Value.word_integer hn), List.map_cons,
      ← ih fun v hv => hword v (List.mem_cons_of_mem _ hv)]

theorem length_words (h : f.HoldsWords) : f.words.length = f.count := by
  rw [← h.count, h.values_eq, List.length_map]

theorem getElem?_values (h : f.HoldsWords) {i n : Nat} :
    f.values[i]? = some (.integer n) ↔ f.words[i]? = some n := by
  rw [h.values_eq, List.getElem?_map, Option.map_eq_some_iff]
  constructor
  · rintro ⟨m, hm, hvalue⟩
    obtain rfl := Int.ofNat.inj (Value.integer.inj hvalue)
    exact hm
  · exact fun hn => ⟨n, hn, rfl⟩

end Field.HoldsWords

/-- Every block is given by two words at the same place of their fields, its end does not exceed a
word, and it is inside the file. -/
def BlocksFit (fileLength : Nat) (offsets byteCounts : Field) : Prop :=
  ∀ i < offsets.count, ∃ offset size : Nat, offsets.values[i]? = some (.integer offset) ∧
    byteCounts.values[i]? = some (.integer size) ∧ offset + size ≤ maxWord ∧
    offset + size ≤ fileLength

/-- Zipping the words of two fields pairs all of their values, so no block is left unchecked. -/
theorem blocksInside_iff {fileLength : Nat} {offsets byteCounts : Field}
    (ho : offsets.HoldsWords) (hb : byteCounts.HoldsWords)
    (hcounts : offsets.count = byteCounts.count) :
    BlocksInside fileLength offsets byteCounts ↔ BlocksFit fileLength offsets byteCounts := by
  constructor
  · intro h i hi
    have hio : i < offsets.words.length := ho.length_words.symm ▸ hi
    have hib : i < byteCounts.words.length := hb.length_words.symm ▸ hcounts ▸ hi
    have hoffset := List.getElem?_eq_getElem hio
    have hsize := List.getElem?_eq_getElem hib
    have hzip : (offsets.words.zip byteCounts.words)[i]? =
        some (offsets.words[i], byteCounts.words[i]) :=
      List.getElem?_zip_eq_some.mpr ⟨hoffset, hsize⟩
    exact ⟨_, _, ho.getElem?_values.mpr hoffset, hb.getElem?_values.mpr hsize,
      isSection_iff.mp (h _ (List.mem_of_getElem? hzip))⟩
  · intro h block hblock
    obtain ⟨i, hi⟩ := List.mem_iff_getElem?.mp hblock
    obtain ⟨hoffset, hsize⟩ := List.getElem?_zip_eq_some.mp hi
    have hlt : i < offsets.count := ho.length_words ▸ (List.getElem?_eq_some_iff.mp hoffset).1
    obtain ⟨offset, size, ho', hb', hfit⟩ := h i hlt
    obtain rfl := Option.some.inj ((ho.getElem?_values.mp ho').symm.trans hoffset)
    obtain rfl := Option.some.inj ((hb.getElem?_values.mp hb').symm.trans hsize)
    exact isSection_iff.mpr hfit

namespace Directory

def HoldsBlockWords (d : Directory) : Prop :=
  ∀ tag ∈ [Tag.stripOffsets, Tag.stripByteCounts, Tag.tileOffsets, Tag.tileByteCounts],
    ∀ f, d.find? tag = some f → f.HoldsWords

/-- The rows of a strip, as the directory gives them or, for a single strip, as many as the image
has. -/
def KnowsRows (d : Directory) (rows : Nat) : Prop :=
  d.word? Tag.rowsPerStrip = some rows ∨
    d.word? Tag.rowsPerStrip = none ∧
      (∃ offsets, d.find? Tag.stripOffsets = some offsets ∧ offsets.count = 1) ∧
      d.word? Tag.imageLength = some rows

theorem knowsRows_iff {d : Directory} {rows : Nat} :
    d.KnowsRows rows ↔ DirectoryRules.rowsPerStrip? d = some rows := by
  rw [KnowsRows, DirectoryRules.rowsPerStrip?, Option.or_eq_some_iff]
  refine or_congr_right (and_congr_right fun _ => ?_)
  cases d.find? Tag.stripOffsets with
  | none => simp
  | some offsets => simp

theorem rowsPerStrip_eq_none_iff {d : Directory} :
    DirectoryRules.rowsPerStrip? d = none ↔ ∀ rows, ¬d.KnowsRows rows := by
  simp only [knowsRows_iff, Option.eq_none_iff_forall_ne_some, ne_eq]

/-- The image data is in strips: one complete set of strip fields and nothing of tiles, as many
strips as the rows ask for where these are known, and every strip inside the file. -/
def HasStrips (d : Directory) (fileLength : Nat) : Prop :=
  ∃ offsets byteCounts rows,
    d.find? Tag.stripOffsets = some offsets ∧ d.find? Tag.stripByteCounts = some byteCounts ∧
    d.KnowsRows rows ∧
    (d.word? Tag.tileWidth = none ∧ d.word? Tag.tileLength = none ∧
      d.find? Tag.tileOffsets = none ∧ d.find? Tag.tileByteCounts = none) ∧
    offsets.count = byteCounts.count ∧
    (∀ height, d.word? Tag.imageLength = some height → 0 < rows →
      offsets.count = min maxWord (ceilDiv height rows * DirectoryRules.planes d)) ∧
    BlocksFit fileLength offsets byteCounts

/-- The image data is in tiles: one complete set of tile fields and nothing of strips, dimensions
that are multiples of 16, as many tiles as the image asks for where its size is known, and every
tile inside the file. -/
def HasTiles (d : Directory) (fileLength : Nat) : Prop :=
  ∃ width length offsets byteCounts,
    d.word? Tag.tileWidth = some width ∧ d.word? Tag.tileLength = some length ∧
    (width % 16 = 0 ∧ length % 16 = 0) ∧
    d.find? Tag.tileOffsets = some offsets ∧ d.find? Tag.tileByteCounts = some byteCounts ∧
    (d.find? Tag.stripOffsets = none ∧ d.find? Tag.stripByteCounts = none ∧
      ∀ rows, ¬d.KnowsRows rows) ∧
    offsets.count = byteCounts.count ∧
    (∀ imageWidth imageLength, d.word? Tag.imageWidth = some imageWidth →
      d.word? Tag.imageLength = some imageLength → 0 < width → 0 < length →
      offsets.count = min maxWord
        (ceilDiv imageWidth width * ceilDiv imageLength length * DirectoryRules.planes d)) ∧
    BlocksFit fileLength offsets byteCounts

end Directory

namespace DirectoryRules

variable {d : Directory} {index fileLength : Nat}

theorem adverse_blockFindings {block : Nat} {blocks : List (Nat × Nat)} :
    Adverse (blockFindings index block fileLength blocks) := by
  induction blocks generalizing block with
  | nil => exact .nil
  | cons first rest ih =>
    rw [blockFindings]
    split
    · exact ih
    · exact Adverse.singleton.mpr rfl

theorem adverse_stripFindings {s : Strips} : Adverse (stripFindings d index fileLength s) := by
  rw [stripFindings, Adverse.append, Adverse.append]
  refine ⟨⟨.ite (Adverse.singleton.mpr rfl), ?_⟩, adverse_blockFindings⟩
  cases d.word? Tag.imageLength with
  | none => exact .nil
  | some height => exact .ite (Adverse.singleton.mpr rfl)

theorem adverse_tileFindings {t : Tiles} : Adverse (tileFindings d index fileLength t) := by
  simp only [tileFindings, Adverse.append]
  refine ⟨⟨⟨⟨.ite ?_, .ite ?_⟩, .ite ?_⟩, ?_⟩, adverse_blockFindings⟩
  · exact Adverse.singleton.mpr rfl
  · exact Adverse.singleton.mpr rfl
  · exact Adverse.singleton.mpr rfl
  · split
    · exact .ite (Adverse.singleton.mpr rfl)
    · exact .nil

theorem adverse_layoutFindings : Adverse (layoutFindings d index fileLength) := by
  unfold layoutFindings
  dsimp only
  split
  · split
    · exact adverse_stripFindings
    · split <;> exact Adverse.singleton.mpr rfl
  · split
    · split
      · exact adverse_tileFindings
      · exact Adverse.singleton.mpr rfl
    · exact Adverse.singleton.mpr rfl

theorem expectedStrips_eq {height rows : Nat} :
    expectedStrips d height rows = min maxWord (ceilDiv height rows * planes d) := by
  rw [expectedStrips, saturate, Nat.min_comm]

theorem expectedTiles_eq {width length tileWidth tileLength : Nat} :
    expectedTiles d width length tileWidth tileLength =
      min maxWord (ceilDiv width tileWidth * ceilDiv length tileLength * planes d) := by
  rw [expectedTiles, saturate_mul, saturate, Nat.min_comm]

theorem exists_stripLayout_iff (h : d.HoldsBlockWords) :
    (∃ s, d.StripLayout fileLength s) ↔ d.HasStrips fileLength := by
  constructor
  · rintro ⟨s, hs⟩
    refine ⟨s.offsets, s.byteCounts, s.rowsPerStrip, hs.offsets, hs.byteCounts,
      Directory.knowsRows_iff.mpr hs.rows, hs.tiles, hs.counts, ?_, ?_⟩
    · intro height hheight hrows
      rw [hs.expected hheight hrows, expectedStrips_eq]
    · have ho := h _ (by simp) _ hs.offsets
      have hb := h _ (by simp) _ hs.byteCounts
      exact (blocksInside_iff ho hb hs.counts).mp hs.inside
  · rintro ⟨offsets, byteCounts, rows, ho, hb, hrows, htiles, hcounts, hexpected, hfit⟩
    refine ⟨⟨offsets, byteCounts, rows⟩, ho, hb, Directory.knowsRows_iff.mp hrows, htiles,
      hcounts, ?_, ?_⟩
    · intro height hheight hpos
      rw [hexpected height hheight hpos, expectedStrips_eq]
    · exact (blocksInside_iff (h _ (by simp) _ ho) (h _ (by simp) _ hb) hcounts).mpr hfit

theorem exists_tileLayout_iff (h : d.HoldsBlockWords) :
    (∃ t, d.TileLayout fileLength t) ↔ d.HasTiles fileLength := by
  constructor
  · rintro ⟨t, ht⟩
    obtain ⟨hoffsets, hbyteCounts, hrows⟩ := ht.strips
    refine ⟨t.width, t.length, t.offsets, t.byteCounts, ht.width, ht.length, ht.whole,
      ht.offsets, ht.byteCounts,
      ⟨hoffsets, hbyteCounts, Directory.rowsPerStrip_eq_none_iff.mp hrows⟩, ht.counts, ?_, ?_⟩
    · intro imageWidth imageLength hw hl hwidth hlength
      rw [ht.expected hw hl hwidth hlength, expectedTiles_eq]
    · have ho := h _ (by simp) _ ht.offsets
      have hb := h _ (by simp) _ ht.byteCounts
      exact (blocksInside_iff ho hb ht.counts).mp ht.inside
  · rintro ⟨width, length, offsets, byteCounts, hw, hl, hwhole, ho, hb,
      ⟨hoffsets, hbyteCounts, hrows⟩, hcounts, hexpected, hfit⟩
    refine ⟨⟨width, length, offsets, byteCounts⟩, hw, hl, ho, hb,
      ⟨hoffsets, hbyteCounts, Directory.rowsPerStrip_eq_none_iff.mpr hrows⟩, hwhole, hcounts,
      ?_, ?_⟩
    · intro imageWidth imageLength hiw hil hwidth hlength
      rw [hexpected imageWidth imageLength hiw hil hwidth hlength, expectedTiles_eq]
    · exact (blocksInside_iff (h _ (by simp) _ ho) (h _ (by simp) _ hb) hcounts).mpr hfit

/-- The rules find nothing exactly in one complete set of strip fields or of tile fields. -/
theorem layoutFindings_eq_nil_iff (h : d.HoldsBlockWords) :
    layoutFindings d index fileLength = [] ↔ d.HasStrips fileLength ∨ d.HasTiles fileLength := by
  rw [← adverse_layoutFindings.silent_iff, silent_layoutFindings, exists_stripLayout_iff h,
    exists_tileLayout_iff h]

end DirectoryRules

def wordField (tag : Nat) (words : List Nat) : Field :=
  ⟨tag, 4, words.length, none, .empty, words.map fun n : Nat => .integer n⟩

theorem wordField_holdsWords {tag : Nat} {words : List Nat} (h : ∀ n ∈ words, n ≤ maxWord) :
    (wordField tag words).HoldsWords where
  word {v} hv := by
    obtain ⟨n, hn, rfl⟩ := List.mem_map.mp hv
    exact ⟨n, h n hn, rfl⟩
  count := List.length_map _

def twoStrips : Directory :=
  ⟨8, [wordField Tag.imageLength [10], wordField Tag.stripOffsets [100, 150],
    wordField Tag.rowsPerStrip [5], wordField Tag.stripByteCounts [50, 50]], 0⟩

theorem twoStrips_holdsBlockWords : twoStrips.HoldsBlockWords := by
  intro tag _ f hf
  have hmem := List.mem_of_find?_eq_some hf
  simp only [twoStrips, List.mem_cons, List.not_mem_nil, or_false] at hmem
  rcases hmem with rfl | rfl | rfl | rfl <;> exact wordField_holdsWords (by decide)

theorem DirectoryRules.layoutFindings_eq_nil_iff_twoStrips :
    twoStrips.HoldsBlockWords ∧ layoutFindings twoStrips 0 200 = [] ∧
      (twoStrips.HasStrips 200 ∨ twoStrips.HasTiles 200) := by
  have hwords := twoStrips_holdsBlockWords
  have hnone : layoutFindings twoStrips 0 200 = [] := by rfl
  exact ⟨hwords, hnone, (layoutFindings_eq_nil_iff hwords).mp hnone⟩

end ImageAudit.Tiff
