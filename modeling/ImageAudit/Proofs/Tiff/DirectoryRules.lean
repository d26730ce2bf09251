import ImageAudit.Proofs.Tiff.FieldRules
import ImageAudit.Tiff.DirectoryRules

/-! What the rules for a directory find nothing in: one complete set of strip fields or of tile
fields, with as many blocks as the dimensions ask for and all of them inside the file. -/
namespace ImageAudit.Tiff

def BlocksInside (fileLength : Nat) (offsets byteCounts : Field) : Prop :=
  ∀ block ∈ offsets.words.zip byteCounts.words, isSection block.1 block.2 fileLength = true

namespace Directory

def HasNoStrips (d : Directory) : Prop :=
  d.find? Tag.stripOffsets = none ∧ d.find? Tag.stripByteCounts = none ∧
    DirectoryRules.rowsPerStrip? d = none

def HasNoTiles (d : Directory) : Prop :=
  d.word? Tag.tileWidth = none ∧ d.word? Tag.tileLength = none ∧
    d.find? Tag.tileOffsets = none ∧ d.find? Tag.tileByteCounts = none

structure StripLayout (d : Directory) (fileLength : Nat) (s : DirectoryRules.Strips) : Prop where
  offsets : d.find? Tag.stripOffsets = some s.offsets
  byteCounts : d.find? Tag.stripByteCounts = some s.byteCounts
  rows : DirectoryRules.rowsPerStrip? d = some s.rowsPerStrip
  tiles : d.HasNoTiles
  counts : s.offsets.count = s.byteCounts.count
  expected {height : Nat} : d.word? Tag.imageLength = some height → 0 < s.rowsPerStrip →
    s.offsets.count = DirectoryRules.expectedStrips d height s.rowsPerStrip
  inside : BlocksInside fileLength s.offsets s.byteCounts

structure TileLayout (d : Directory) (fileLength : Nat) (t : DirectoryRules.Tiles) : Prop where
  width : d.word? Tag.tileWidth = some t.width
  length : d.word? Tag.tileLength = some t.length
  offsets : d.find? Tag.tileOffsets = some t.offsets
  byteCounts : d.find? Tag.tileByteCounts = some t.byteCounts
  strips : d.HasNoStrips
  whole : t.width % 16 = 0 ∧ t.length % 16 = 0
  counts : t.offsets.count = t.byteCounts.count
  expected {width length : Nat} : d.word? Tag.imageWidth = some width →
    d.word? Tag.imageLength = some length → 0 < t.width → 0 < t.length →
    t.offsets.count = DirectoryRules.expectedTiles d width length t.width t.length
  inside : BlocksInside fileLength t.offsets t.byteCounts

def HasExpectedSamples (d : Directory) : Prop :=
  ∀ photometric colour, d.word? Tag.photometricInterpretation = some photometric →
    DirectoryRules.colourSamples? photometric = some colour →
    (d.word? Tag.samplesPerPixel).getD 1 =
      saturate (colour + ((d.find? Tag.extraSamples).map Field.count).getD 0)

end Directory

namespace DirectoryRules

variable {d : Directory} {index fileLength : Nat}

theorem silent_mandatoryFindings :
    Silent (mandatoryFindings d index) ↔ ∀ r ∈ Schema.mandatory, d.contains r.tag = true := by
  rw [mandatoryFindings]
  constructor
  · intro h r hr
    cases hc : d.contains r.tag with
    | true => rfl
    | false =>
      have hmem : r ∈ Schema.mandatory.filter fun r => !d.contains r.tag :=
        List.mem_filter.mpr ⟨hr, by rw [hc]; rfl⟩
      cases h _ (List.mem_map_of_mem hmem)
  · intro h g hg
    obtain ⟨r, hr, rfl⟩ := List.mem_map.mp hg
    obtain ⟨hr, hc⟩ := List.mem_filter.mp hr
    rw [h r hr] at hc
    cases hc

theorem silent_sampleFindings : Silent (sampleFindings d index) ↔ d.HasExpectedSamples := by
  rw [sampleFindings, Directory.HasExpectedSamples]
  cases d.word? Tag.photometricInterpretation with
  | none => simp
  | some photometric =>
    cases hcolour : colourSamples? photometric with
    | none =>
      simp only [Option.bind_some, hcolour, Silent.nil, true_iff]
      intro p colour hp hc
      obtain rfl := Option.some.inj hp
      cases hcolour.symm.trans hc
    | some colour =>
      simp only [Option.bind_some, hcolour]
      constructor
      · intro h p colour' hp hc
        obtain rfl := Option.some.inj hp
        obtain rfl := Option.some.inj (hcolour.symm.trans hc)
        cases hextra : d.find? Tag.extraSamples <;>
          simpa [hextra, Finding.severity] using h
      · intro h
        have hcount := h photometric colour rfl hcolour
        cases hextra : d.find? Tag.extraSamples <;>
          simpa [hextra, Finding.severity] using hcount

/-- The check stops at the first block outside the file, and no block before it is. -/
theorem silent_blockFindings {block : Nat} {blocks : List (Nat × Nat)} :
    Silent (blockFindings index block fileLength blocks) ↔
      ∀ b ∈ blocks, isSection b.1 b.2 fileLength = true := by
  induction blocks generalizing block with
  | nil => simp [blockFindings]
  | cons first rest ih =>
    obtain ⟨offset, size⟩ := first
    rw [blockFindings, List.forall_mem_cons]
    by_cases hinside : isSection offset size fileLength = true
    · rw [if_pos hinside, ih]
      exact ⟨fun h => ⟨hinside, h⟩, fun h => h.2⟩
    · rw [if_neg hinside, Silent.singleton]
      constructor
      · intro h
        cases h
      · intro h
        exact absurd h.1 hinside

theorem silent_stripFindings {s : Strips} :
    Silent (stripFindings d index fileLength s) ↔
      s.offsets.count = s.byteCounts.count ∧
      (∀ height, d.word? Tag.imageLength = some height → 0 < s.rowsPerStrip →
        s.offsets.count = expectedStrips d height s.rowsPerStrip) ∧
      BlocksInside fileLength s.offsets s.byteCounts := by
  rw [stripFindings]
  simp only [Silent.append, silent_blockFindings, BlocksInside, and_assoc]
  refine and_congr ?_ (and_congr ?_ Iff.rfl)
  · simp [Finding.severity]
  · cases d.word? Tag.imageLength with
    | none => simp
    | some height => simp [Finding.severity]

theorem silent_tileFindings {t : Tiles} :
    Silent (tileFindings d index fileLength t) ↔
      (t.width % 16 = 0 ∧ t.length % 16 = 0) ∧ t.offsets.count = t.byteCounts.count ∧
      (∀ width length, d.word? Tag.imageWidth = some width →
        d.word? Tag.imageLength = some length → 0 < t.width → 0 < t.length →
        t.offsets.count = expectedTiles d width length t.width t.length) ∧
      BlocksInside fileLength t.offsets t.byteCounts := by
  rw [tileFindings]
  simp only [Silent.append, silent_blockFindings, BlocksInside, and_assoc]
  refine and_congr ?_ (and_congr ?_ (and_congr ?_ (and_congr ?_ Iff.rfl)))
  · simp [Finding.severity]
  · simp [Finding.severity]
  · simp [Finding.severity]
  · cases d.word? Tag.imageWidth with
    | none => simp
    | some width =>
      cases d.word? Tag.imageLength with
      | none => simp
      | some length => simp [Finding.severity]

private theorem hasNoTiles_iff :
    ((d.word? Tag.tileWidth).isNone && (d.word? Tag.tileLength).isNone &&
      (d.find? Tag.tileOffsets).isNone && (d.find? Tag.tileByteCounts).isNone) = true ↔
      d.HasNoTiles := by
  simp [Directory.HasNoTiles, and_assoc]

private theorem hasNoStrips_iff :
    ((d.find? Tag.stripOffsets).isNone && (d.find? Tag.stripByteCounts).isNone &&
      (rowsPerStrip? d).isNone) = true ↔ d.HasNoStrips := by
  simp [Directory.HasNoStrips, and_assoc]

/-- The strip fields that are there are the ones of the only possible layout in strips. -/
private theorem silent_strips {offsets byteCounts : Field} {rows : Nat} (htiles : d.HasNoTiles)
    (ho : d.find? Tag.stripOffsets = some offsets)
    (hb : d.find? Tag.stripByteCounts = some byteCounts) (hr : rowsPerStrip? d = some rows) :
    Silent (stripFindings d index fileLength ⟨offsets, byteCounts, rows⟩) ↔
      ∃ s, d.StripLayout fileLength s := by
  rw [silent_stripFindings]
  constructor
  · intro hlayout
    rcases hlayout with ⟨hcounts, hexpected, hinside⟩
    exact ⟨⟨offsets, byteCounts, rows⟩, ho, hb, hr, htiles, hcounts, hexpected _, hinside⟩
  · intro hlayout
    rcases hlayout with ⟨s, hs⟩
    obtain rfl := Option.some.inj (ho.symm.trans hs.offsets)
    obtain rfl := Option.some.inj (hb.symm.trans hs.byteCounts)
    obtain rfl := Option.some.inj (hr.symm.trans hs.rows)
    exact ⟨hs.counts, fun _ => hs.expected, hs.inside⟩

private theorem silent_tiles {width length : Nat} {offsets byteCounts : Field}
    (hstrips : d.HasNoStrips) (hw : d.word? Tag.tileWidth = some width)
    (hl : d.word? Tag.tileLength = some length) (ho : d.find? Tag.tileOffsets = some offsets)
    (hb : d.find? Tag.tileByteCounts = some byteCounts) :
    Silent (tileFindings d index fileLength ⟨width, length, offsets, byteCounts⟩) ↔
      ∃ t, d.TileLayout fileLength t := by
  rw [silent_tileFindings]
  constructor
  · intro hlayout
    rcases hlayout with ⟨hwhole, hcounts, hexpected, hinside⟩
    exact ⟨⟨width, length, offsets, byteCounts⟩, hw, hl, ho, hb, hstrips, hwhole, hcounts,
      hexpected _ _, hinside⟩
  · intro hlayout
    rcases hlayout with ⟨t, ht⟩
    obtain rfl := Option.some.inj (hw.symm.trans ht.width)
    obtain rfl := Option.some.inj (hl.symm.trans ht.length)
    obtain rfl := Option.some.inj (ho.symm.trans ht.offsets)
    obtain rfl := Option.some.inj (hb.symm.trans ht.byteCounts)
    exact ⟨ht.whole, ht.counts, fun _ _ => ht.expected, ht.inside⟩

/-- Nothing is found exactly when the image data is in strips or in tiles. -/
theorem silent_layoutFindings :
    Silent (layoutFindings d index fileLength) ↔
      (∃ s, d.StripLayout fileLength s) ∨ ∃ t, d.TileLayout fileLength t := by
  unfold layoutFindings
  dsimp only
  by_cases htiles : d.HasNoTiles
  · rw [if_pos (hasNoTiles_iff.mpr htiles)]
    have hnot : ¬∃ t, d.TileLayout fileLength t := by
      intro hlayout
      rcases hlayout with ⟨t, ht⟩
      cases htiles.1.symm.trans ht.width
    rw [or_iff_left hnot]
    split
    · next ho hb hr => exact silent_strips htiles ho hb hr
    · next hmissing =>
      constructor
      · intro h
        split at h
        · cases Silent.singleton.mp h
        · cases Silent.singleton.mp h
      · intro hlayout
        rcases hlayout with ⟨s, hs⟩
        exact absurd hs.rows (hmissing _ _ _ hs.offsets hs.byteCounts)
  · rw [if_neg (mt hasNoTiles_iff.mp htiles)]
    have hnot : ¬∃ s, d.StripLayout fileLength s := by
      intro hlayout
      rcases hlayout with ⟨s, hs⟩
      exact htiles hs.tiles
    rw [or_iff_right hnot]
    by_cases hstrips : d.HasNoStrips
    · rw [if_pos (hasNoStrips_iff.mpr hstrips)]
      split
      · next hw hl ho hb => exact silent_tiles hstrips hw hl ho hb
      · next hmissing =>
        constructor
        · intro h
          cases Silent.singleton.mp h
        · intro hlayout
          rcases hlayout with ⟨t, ht⟩
          exact absurd ht.byteCounts (hmissing _ _ _ _ ht.width ht.length ht.offsets)
    · rw [if_neg (mt hasNoStrips_iff.mp hstrips)]
      constructor
      · intro h
        cases Silent.singleton.mp h
      · intro hlayout
        rcases hlayout with ⟨t, ht⟩
        exact absurd ht.strips hstrips

/-- A directory that is not exempt has the fields that a main one needs, a layout for its image data
and the samples that are expected. -/
theorem silent_check {kind : DirectoryKind} :
    Silent (check d kind index fileLength) ↔ (isExempt d kind = false →
      (kind = .main → ∀ r ∈ Schema.mandatory, d.contains r.tag = true) ∧
      ((∃ s, d.StripLayout fileLength s) ∨ ∃ t, d.TileLayout fileLength t) ∧
      d.HasExpectedSamples) := by
  rw [check, Silent.ite_nil, Bool.not_eq_true]
  simp only [Silent.append, Silent.ite, beq_iff_eq, silent_mandatoryFindings,
    silent_layoutFindings, silent_sampleFindings, and_assoc]

end DirectoryRules
end ImageAudit.Tiff
