import ImageAudit.Tiff.Decoder

/-! Directories without the stored bytes of their numbers. How the bytes of a number are ordered is
lost when they are blanked out, and no rule looks at them: rules look at decoded values, at texts
and at packets. -/
namespace ImageAudit.Tiff

namespace Field

def isWide (f : Field) : Bool := f.fieldType?.any fun t => 1 < t.size

def blank (f : Field) : Field :=
  if f.isWide && f.raw.size != f.count then
    { f with raw := ⟨(List.replicate f.raw.size 0).toArray⟩ }
  else f

variable (f : Field)

@[simp] theorem tag_blank : f.blank.tag = f.tag := by
  unfold blank
  split <;> rfl

@[simp] theorem typeId_blank : f.blank.typeId = f.typeId := by
  unfold blank
  split <;> rfl

@[simp] theorem count_blank : f.blank.count = f.count := by
  unfold blank
  split <;> rfl

@[simp] theorem values_blank : f.blank.values = f.values := by
  unfold blank
  split <;> rfl

@[simp] theorem first?_blank : f.blank.first? = f.first? := by simp [first?]

@[simp] theorem words_blank : f.blank.words = f.words := by simp [words]

@[simp] theorem fieldType?_blank : f.blank.fieldType? = f.fieldType? := by simp [fieldType?]

/-- Fields whose values are single bytes stay as they are. -/
theorem blank_of_not_wide {f : Field} (h : f.isWide = false) : f.blank = f := by
  simp [blank, h]

/-- So do fields that have as many bytes as values. -/
theorem blank_of_size {f : Field} (h : f.raw.size = f.count) : f.blank = f := by
  simp [blank, h]

@[simp] theorem size_raw_blank : f.blank.raw.size = f.raw.size := by
  unfold blank
  split
  · exact List.size_toArray.trans List.length_replicate
  · rfl

/-- Fields that differ in the order of the bytes of their numbers alone are the same once these are
blanked out. -/
theorem blank_eq_blank {f g : Field} (htag : f.tag = g.tag) (htype : f.typeId = g.typeId)
    (hcount : f.count = g.count) (hoffset : f.valueOffset = g.valueOffset)
    (hvalues : f.values = g.values) (hsize : f.raw.size = g.raw.size)
    (hraw : f.raw = g.raw ∨ f.isWide = true ∧ f.raw.size ≠ f.count) : f.blank = g.blank := by
  obtain ⟨tag, typeId, count, valueOffset, raw, values⟩ := f
  obtain ⟨tag', typeId', count', valueOffset', raw', values'⟩ := g
  dsimp only at htag htype hcount hoffset hvalues hsize
  subst htag htype hcount hoffset hvalues
  rcases hraw with rfl | ⟨hwide, hne⟩
  · rfl
  · have hwide' : isWide ⟨tag, typeId, count, valueOffset, raw', values⟩ = true := hwide
    dsimp only at hne
    have hne' : raw'.size ≠ count := hsize ▸ hne
    simp only [blank, hwide, hwide', hsize, bne_iff_ne.mpr hne', Bool.and_self, reduceIte]

end Field

namespace FieldRules

/-- The rules for a field look at the stored bytes of texts alone, which are single bytes. -/
theorem check_blank (f : Field) : check f.blank = check f := by
  cases hwide : f.isWide with
  | false => rw [Field.blank_of_not_wide hwide]
  | true =>
    obtain ⟨t, htype, hsize⟩ : ∃ t, f.fieldType? = some t ∧ 1 < t.size := by
      simpa [Field.isWide, Option.any_eq_true] using hwide
    have htext : (t == .ascii) = false := by
      cases t <;> first | rfl | simp [FieldType.size] at hsize
    simp [check, htype, htext]

end FieldRules

namespace Directory

def blank (d : Directory) : Directory := { d with fields := d.fields.map Field.blank }

variable (d : Directory) (tag : Nat)

@[simp] theorem offset_blank : d.blank.offset = d.offset := rfl

@[simp] theorem nextOffset_blank : d.blank.nextOffset = d.nextOffset := rfl

@[simp] theorem find?_blank : d.blank.find? tag = (d.find? tag).map Field.blank := by
  simp only [find?, blank, List.find?_map, Function.comp_def, Field.tag_blank]

@[simp] theorem contains_blank : d.blank.contains tag = d.contains tag := by simp [contains]

@[simp] theorem word?_blank : d.blank.word? tag = d.word? tag := by
  simp only [word?, find?_blank, Option.bind_map, Function.comp_def, Field.first?_blank]

@[simp] theorem isThumbnail_blank : d.blank.isThumbnail = d.isThumbnail := by
  simp [isThumbnail, blank, Function.comp_def]

@[simp] theorem subOffsets_blank : d.blank.subOffsets = d.subOffsets := by
  unfold subOffsets
  rw [find?_blank]
  cases d.find? Tag.subDirectories <;> simp

@[simp] theorem gpsOffset?_blank : d.blank.gpsOffset? = d.gpsOffset? := by simp [gpsOffset?]

@[simp] theorem hasChildren_blank : d.blank.hasChildren = d.hasChildren := by simp [hasChildren]

end Directory

namespace DirectoryRules

variable (d : Directory) (index fileLength : Nat)

@[simp] theorem mandatoryFindings_blank :
    mandatoryFindings d.blank index = mandatoryFindings d index := by
  simp [mandatoryFindings]

@[simp] theorem sampleFindings_blank : sampleFindings d.blank index = sampleFindings d index := by
  simp only [sampleFindings, Directory.word?_blank, Directory.find?_blank]
  cases d.find? Tag.extraSamples <;> simp

@[simp] theorem planes_blank : planes d.blank = planes d := by simp [planes]

@[simp] theorem rowsPerStrip?_blank : rowsPerStrip? d.blank = rowsPerStrip? d := by
  simp only [rowsPerStrip?, Directory.word?_blank, Directory.find?_blank]
  cases d.find? Tag.stripOffsets <;> simp

theorem stripFindings_blank (offsets byteCounts : Field) (rows : Nat) :
    stripFindings d.blank index fileLength ⟨offsets.blank, byteCounts.blank, rows⟩ =
      stripFindings d index fileLength ⟨offsets, byteCounts, rows⟩ := by
  simp [stripFindings, expectedStrips]

theorem tileFindings_blank (width length : Nat) (offsets byteCounts : Field) :
    tileFindings d.blank index fileLength ⟨width, length, offsets.blank, byteCounts.blank⟩ =
      tileFindings d index fileLength ⟨width, length, offsets, byteCounts⟩ := by
  simp [tileFindings, expectedTiles]

@[simp] theorem layoutFindings_blank :
    layoutFindings d.blank index fileLength = layoutFindings d index fileLength := by
  simp only [layoutFindings, Directory.find?_blank, Directory.word?_blank, rowsPerStrip?_blank,
    Option.isNone_map]
  split
  · cases d.find? Tag.stripOffsets <;> cases d.find? Tag.stripByteCounts <;>
      cases rowsPerStrip? d <;> simp [stripFindings_blank]
  · split
    · cases d.find? Tag.tileOffsets <;> cases d.find? Tag.tileByteCounts <;>
        cases d.word? Tag.tileWidth <;> cases d.word? Tag.tileLength <;> simp [tileFindings_blank]
    · rfl

/-- The rules for a directory look at counts and decoded values. -/
@[simp] theorem check_blank (kind : DirectoryKind) :
    check d.blank kind index fileLength = check d kind index fileLength := by
  simp [check, isExempt]

end DirectoryRules

namespace Baseline

/-- So does the baseline profile. -/
theorem check_blank (d : Directory) : check d.blank = check d := by
  have htags : tagFindings d.blank = tagFindings d := by
    simp [tagFindings, Directory.blank, List.filter_map, Function.comp_def]
  have hbits : bitsOf d.blank = bitsOf d := by
    simp only [bitsOf, Directory.find?_blank]
    cases d.find? Tag.bitsPerSample <;> simp
  simp [check, htags, compressionFindings, photometricFindings, hbits]

end Baseline

namespace EmbeddedData

/-- A packet is looked at only where each value is a byte. -/
theorem packetFindings_blank (d : Directory) : packetFindings d.blank = packetFindings d := by
  simp only [packetFindings, Directory.find?_blank]
  cases d.find? Tag.xmp with
  | none => rfl
  | some f =>
    simp only [Option.map_some, Field.size_raw_blank, Field.count_blank]
    split
    · next hsize => rw [Field.blank_of_size hsize]
    · rfl

end EmbeddedData

namespace DirectoryTree

def blank : DirectoryTree → DirectoryTree
  | node d subs gps => node d.blank (subs.map blank) (gps.map blank)

@[simp] theorem blank_node (d : Directory) (subs gps : List DirectoryTree) :
    blank (node d subs gps) = node d.blank (subs.map blank) (gps.map blank) := by
  rw [blank]

@[simp] theorem directory_blank (tree : DirectoryTree) :
    tree.blank.directory = tree.directory.blank := by
  cases tree
  rw [blank_node]
  rfl

end DirectoryTree

end ImageAudit.Tiff
