import ImageAudit.Proofs.Tiff.Faithfulness
import ImageAudit.Proofs.Tiff.ImageBlocks

/-! Conformance. A directory in which a walk found nothing has well-formed fields, and the values
that its image data is found by are words inside the file. -/
namespace ImageAudit.Tiff

def Clean (log : List ImageAudit.Finding) : Prop := ∀ g ∈ log, g.severity = .info

theorem Clean.silent {log : List ImageAudit.Finding} (h : Clean log) {found : List Finding}
    (hmem : found.map .tiff ⊆ log) : Silent found :=
  fun _ hg => h _ (hmem (List.mem_map_of_mem hg))

theorem Clean.not_mem {log : List ImageAudit.Finding} (h : Clean log) {g : ImageAudit.Finding}
    (hg : g.severity.isProblem = true) : g ∉ log := by
  intro hmem
  rw [h g hmem] at hg
  cases hg

/-- The field is of a known type and has as many values as it announces, decoded from stored bytes;
values that its entry does not hold are at an even offset and inside the file. It is as the rule of
its tag asks, and text is well-formed. -/
structure Field.Conforms (f : Field) (order : ByteOrder) (fileLength : Nat) (t : FieldType) :
    Prop where
  type : f.fieldType? = some t
  values : f.values = t.values order f.raw
  count : f.values.length = f.count
  window {offset : Nat} : f.valueOffset = some offset →
    offset % 2 = 0 ∧ offset + t.size * f.count ≤ fileLength
  rule {r : Rule} : Schema.rule? f.tag = some r → r.Admits f t
  text : t = .ascii → f.IsText

namespace FieldType

theorem length_values (t : FieldType) (order : ByteOrder) {raw : ByteArray} {count : Nat}
    (h : raw.size = t.size * count) : (t.values order raw).length = count := by
  rw [values, elements, List.length_map, List.length_map, List.length_range, h,
    Nat.mul_div_cancel_left _ t.size_pos]

theorem length_of_mem_elements {t : FieldType} {raw : ByteArray} {bytes : List UInt8}
    (h : bytes ∈ t.elements raw) : bytes.length = t.size := by
  obtain ⟨i, hi, rfl⟩ := List.mem_map.mp h
  have hle : (i + 1) * t.size ≤ raw.size := by
    have hlt := List.mem_range.mp hi
    exact (Nat.le_div_iff_mul_le t.size_pos).mp hlt
  rw [Nat.add_mul, Nat.one_mul] at hle
  have hsize := ByteArray.size_extract (a := raw) (b := i * t.size) (e := i * t.size + t.size)
  rw [Nat.min_eq_left hle, Nat.add_sub_cancel_left] at hsize
  exact hsize

def words : List FieldType := [.short, .long, .long8]

theorem exists_word {t : FieldType} (ht : t ∈ words) {order : ByteOrder} {raw : ByteArray}
    {v : Value} (hv : v ∈ t.values order raw) : ∃ n : Nat, n ≤ maxWord ∧ v = .integer n := by
  obtain ⟨bytes, hbytes, rfl⟩ := List.mem_map.mp hv
  refine ⟨order.decode bytes, ?_, ?_⟩
  · have hlt := order.decode_lt bytes
    rw [length_of_mem_elements hbytes] at hlt
    have hle : Nat.pow 256 t.size ≤ maxWord + 1 := by
      have hall : ∀ t ∈ words, Nat.pow 256 t.size ≤ maxWord + 1 := by decide
      exact hall t ht
    omega
  · simp only [words, List.mem_cons, List.not_mem_nil, or_false] at ht
    rcases ht with rfl | rfl | rfl <;> rfl

end FieldType

namespace Intake

variable {c : Context} {s t : Intake} {fs : List Field}

/-- Every field is checked, wherever it stands. -/
theorem Runs.checks (h : Runs c s fs t) : ∀ f ∈ fs, FieldRules.check f ⊆ t.findings.toList := by
  induction h with
  | done =>
    intro f hf
    cases hf
  | next htake hruns ih =>
    intro f hf
    rcases List.mem_cons.mp hf with rfl | hf
    · refine List.Subset.trans ?_ hruns.findings
      rw [htake.findings]
      exact List.subset_append_of_subset_right _ (List.subset_append_right _ _)
    · exact ih f hf

private theorem pairwise_concat {tags : List Nat} {tag : Nat} (h : tags.Pairwise (· < ·))
    (hlast : ∀ p, tags.getLast? = some p → p < tag) : (tags ++ [tag]).Pairwise (· < ·) := by
  refine List.pairwise_append.mpr ⟨h, List.pairwise_singleton _ _, ?_⟩
  intro a ha b hb
  obtain rfl := List.mem_singleton.mp hb
  obtain ⟨init, last, rfl⟩ : ∃ init last, tags = init ++ [last] :=
    ⟨_, _, (List.dropLast_concat_getLast (List.ne_nil_of_mem ha)).symm⟩
  have hlt := hlast last (by simp)
  rcases List.mem_append.mp ha with ha | ha
  · exact Nat.lt_trans ((List.pairwise_append.mp h).2.2 a ha last (by simp)) hlt
  · exact List.mem_singleton.mp ha ▸ hlt

/-- Comparing each tag with the one before is enough for all of them to ascend. -/
theorem Runs.ascending (h : Runs c s fs t) (hsilent : Silent t.findings.toList)
    (hbefore : (s.fields.toList.map (·.tag)).Pairwise (· < ·)) :
    (t.fields.toList.map (·.tag)).Pairwise (· < ·) := by
  induction h with
  | done => exact hbefore
  | @next s t u f fs found htake hruns ih =>
    apply ih hsilent
    have hstep : Silent t.findings.toList := fun g hg => hsilent g (hruns.findings hg)
    rw [htake.findings, Silent.append, Silent.append, Silent.append,
      FieldRules.silent_orderFindings] at hstep
    rw [htake.fields, List.map_append]
    apply pairwise_concat hbefore
    intro p hp
    exact hstep.2.1 p (by rwa [← List.getLast?_map])

end Intake

/-- A field in which nothing is found conforms, whichever way its values were got. -/
private theorem Field.HasData.conforms {f : Field} {c : Context} {log : List ImageAudit.Finding}
    {area : List UInt8} (h : f.HasData c log area) (hclean : Clean log)
    (harea : area.length = FieldType.inlineSize c.encoding.big)
    (hcheck : Silent (FieldRules.check f)) :
    ∃ t, f.Conforms c.encoding.order c.source.length t := by
  cases h with
  | unknown _ _ _ htold => exact absurd htold (hclean.not_mem rfl)
  | @inline t ht hfits hoffset hraw hvalues =>
    obtain ⟨hrule, htext⟩ := (FieldRules.silent_check ht).mp hcheck
    have hsize : f.raw.size = t.size * f.count := by
      change f.raw.data.size = _
      rw [← Array.length_toList, hraw, List.length_take, harea, Nat.min_eq_left hfits]
    refine ⟨t, ht, hvalues, ?_, ?_, hrule _, htext⟩
    · rw [hvalues, t.length_values _ hsize]
    · intro offset ho
      cases hoffset.symm.trans ho
  | @loaded t offset ht _ _ hoffset hodd hread hvalues =>
    obtain ⟨hrule, htext⟩ := (FieldRules.silent_check ht).mp hcheck
    have hsize := Source.size_read hread
    refine ⟨t, ht, hvalues, ?_, ?_, hrule _, htext⟩
    · rw [hvalues, t.length_values _ hsize]
    · intro o ho
      obtain rfl := Option.some.inj (hoffset.symm.trans ho)
      have heven := mt hodd (hclean.not_mem rfl)
      exact ⟨by omega, Source.le_of_read hread⟩
  | refused _ _ _ _ _ _ _ hmem hsev _ =>
    exact absurd hmem (hclean.not_mem (by rw [hsev]; rfl))

def BlocksStored (fileLength : Nat) (offsets byteCounts : Field) : Prop :=
  ∀ i < offsets.count, ∃ offset size : Nat, offsets.values[i]? = some (.integer offset) ∧
    byteCounts.values[i]? = some (.integer size) ∧ offset + size ≤ fileLength

private theorem BlocksInside.stored {fileLength : Nat} {offsets byteCounts : Field}
    (h : BlocksInside fileLength offsets byteCounts) (ho : offsets.HoldsWords)
    (hb : byteCounts.HoldsWords) (hcounts : offsets.count = byteCounts.count) :
    BlocksStored fileLength offsets byteCounts := by
  intro i hi
  obtain ⟨offset, size, hoffset, hsize, -, hle⟩ := (blocksInside_iff ho hb hcounts).mp h i hi
  exact ⟨offset, size, hoffset, hsize, hle⟩

namespace Directory

/-- The image data of a directory is in strips or in tiles, not in both, and all of it is inside the
file. -/
def HasImageData (d : Directory) (fileLength : Nat) : Prop :=
  (∃ s, d.StripLayout fileLength s ∧ 0 < s.rowsPerStrip ∧
    BlocksStored fileLength s.offsets s.byteCounts) ∨
  ∃ t, d.TileLayout fileLength t ∧ 0 < t.width ∧ 0 < t.length ∧
    BlocksStored fileLength t.offsets t.byteCounts

/-- What a directory of a valid file is like. GPS directories, thumbnails and the raw image of a CR2
file are exempt from the rules for image data. -/
structure Conforms (d : Directory) (c : Context) (kind : DirectoryKind) : Prop where
  even : d.offset % 2 = 0
  inside : d.offset + countSize c.encoding.big + bodySize c.encoding.big d.fields.length ≤
    c.source.length
  entries : 1 ≤ d.fields.length
  ascending : (d.fields.map (·.tag)).Pairwise (· < ·)
  fields {f : Field} : f ∈ d.fields → ∃ t, f.Conforms c.encoding.order c.source.length t
  mandatory {r : Rule} : DirectoryRules.isExempt d kind = false → kind = .main →
    r ∈ Schema.mandatory → d.contains r.tag = true
  imageData : DirectoryRules.isExempt d kind = false → d.HasImageData c.source.length
  samples : DirectoryRules.isExempt d kind = false → d.HasExpectedSamples
  packet {f : Field} : d.find? Tag.xmp = some f → f.raw.size = f.count →
    Xmp.check f.raw.data.toList = []
  stream {offset length : Nat} : d.word? Tag.embeddedOffset = some offset →
    d.word? Tag.embeddedLength = some length → offset + length ≤ c.source.length ∧
    ∀ g ∈ ((Jpeg.Decoder.new c.settings true).process
      (c.source.window offset length)).stream.findings, g.severity = .info

variable {d : Directory} {tag fileLength : Nat} {order : ByteOrder} {f : Field}

theorem mem_of_find (h : d.find? tag = some f) : f ∈ d.fields ∧ f.tag = tag :=
  ⟨List.mem_of_find?_eq_some h, by simpa using List.find?_some h⟩

/-- The first value of a field keeps the lower bound of its rule. -/
private theorem le_of_word (hfields : ∀ f ∈ d.fields, ∃ t, f.Conforms order fileLength t)
    (least : Int) (hrule : (Schema.rule? tag).bind Rule.minValue = some least) {n : Nat}
    (h : d.word? tag = some n) : least ≤ n := by
  obtain ⟨f, hfind, hfirst⟩ := Option.bind_eq_some_iff.mp h
  obtain ⟨v, hhead, hword⟩ := Option.bind_eq_some_iff.mp hfirst
  obtain ⟨hmem, rfl⟩ := mem_of_find hfind
  obtain ⟨t, ht⟩ := hfields f hmem
  obtain ⟨r, hr, hmin⟩ := Option.bind_eq_some_iff.mp hrule
  obtain rfl := Value.eq_integer_of_word hword
  exact ((ht.rule hr).values (List.mem_of_head? hhead)).1 least hmin

/-- The values of a field whose rule allows no types but those of words. -/
private theorem holdsWords_of_find (hfields : ∀ f ∈ d.fields, ∃ t, f.Conforms order fileLength t)
    (hrule : (Schema.rule? tag).any (fun r => r.types.all (· ∈ FieldType.words)) = true)
    (h : d.find? tag = some f) : f.HoldsWords := by
  obtain ⟨hmem, rfl⟩ := mem_of_find h
  obtain ⟨t, ht⟩ := hfields f hmem
  obtain ⟨r, hr, htypes⟩ := (Option.any_eq_true _ _).mp hrule
  have hallows : t ∈ r.types := List.contains_iff_mem.mp (ht.rule hr).type
  refine ⟨fun {v} hv => ?_, ht.count⟩
  rw [ht.values] at hv
  exact FieldType.exists_word (of_decide_eq_true (List.all_eq_true.mp htypes t hallows)) hv

/-- Offsets and byte counts are read as words, and rows, widths and lengths have a lower bound, so
nothing that the layout asks for is passed over. -/
private theorem hasImageData (hfields : ∀ f ∈ d.fields, ∃ t, f.Conforms order fileLength t)
    (h : (∃ s, d.StripLayout fileLength s) ∨ ∃ t, d.TileLayout fileLength t) :
    d.HasImageData fileLength := by
  rcases h with ⟨s, hs⟩ | ⟨t, ht⟩
  · refine .inl ⟨s, hs, ?_, ?_⟩
    · rcases Option.or_eq_some_iff.mp hs.rows with hrows | ⟨_, hrows⟩
      · have hle := le_of_word hfields 1 rfl hrows
        omega
      · split at hrows
        · split at hrows
          · have hle := le_of_word hfields 1 rfl hrows
            omega
          · cases hrows
        · cases hrows
    · have ho := holdsWords_of_find hfields (by decide) hs.offsets
      have hb := holdsWords_of_find hfields (by decide) hs.byteCounts
      exact hs.inside.stored ho hb hs.counts
  · have hwidth := le_of_word hfields 16 rfl ht.width
    have hlength := le_of_word hfields 16 rfl ht.length
    refine .inr ⟨t, ht, by omega, by omega, ?_⟩
    have ho := holdsWords_of_find hfields (by decide) ht.offsets
    have hb := holdsWords_of_find hfields (by decide) ht.byteCounts
    exact ht.inside.stored ho hb ht.counts

variable {c : Context} {log : List ImageAudit.Finding} {kind : DirectoryKind} {index offset : Nat}
  {budget : Budget}

/-- The value area of every entry is inside the bytes of the directory. -/
private theorem Faithful.hasData (h : d.Faithful c log) (hf : f ∈ d.fields) :
    ∃ area, area.length = FieldType.inlineSize c.encoding.big ∧ f.HasData c log area := by
  obtain ⟨head, body, hhead, hbody, hstored⟩ := h
  obtain ⟨i, hi, rfl⟩ := List.getElem_of_mem hf
  refine ⟨_, ?_, (hstored.fields (List.getElem?_eq_getElem hi)).data⟩
  have hhsize : head.data.toList.length = countSize c.encoding.big := Source.size_read hhead
  have hbsize : body.data.toList.length = bodySize c.encoding.big d.fields.length :=
    Source.size_read hbody
  have hentries : (i + 1) * Entry.size c.encoding.big ≤
      d.fields.length * Entry.size c.encoding.big := Nat.mul_le_mul_right _ hi
  have hentry := Entry.size_eq c.encoding.big
  rw [bodySize] at hbsize
  rw [Nat.add_mul, Nat.one_mul] at hentries
  rw [bytesAt, List.length_take, List.length_drop, List.length_append, hhsize, hbsize]
  omega

private theorem Clean.packet (hclean : Clean log)
    (hlog : (EmbeddedData.packetFindings d).map .xmp ⊆ log) (hfind : d.find? Tag.xmp = some f)
    (hsize : f.raw.size = f.count) : Xmp.check f.raw.data.toList = [] := by
  rw [EmbeddedData.packetFindings, hfind] at hlog
  dsimp only at hlog
  rw [if_pos hsize] at hlog
  refine List.eq_nil_iff_forall_not_mem.mpr fun g hg => ?_
  have hinfo : g.severity = .info := hclean _ (hlog (List.mem_map_of_mem hg))
  cases g <;> cases hinfo

private theorem Clean.stream (hclean : Clean log)
    (hlog : EmbeddedData.streamFindings c.settings c.source d ⊆ log) {start length : Nat}
    (hstart : d.word? Tag.embeddedOffset = some start)
    (hlength : d.word? Tag.embeddedLength = some length) :
    start + length ≤ c.source.length ∧ ∀ g ∈ ((Jpeg.Decoder.new c.settings true).process
      (c.source.window start length)).stream.findings, g.severity = .info := by
  rw [EmbeddedData.streamFindings, hstart, hlength] at hlog
  dsimp only at hlog
  by_cases hsection : c.source.hasSection start length = true
  · rw [if_pos hsection] at hlog
    refine ⟨(Source.hasSection_iff.mp hsection).2, fun g hg => ?_⟩
    exact hclean _ (hlog (List.mem_map_of_mem hg))
  · rw [if_neg hsection] at hlog
    exact absurd (hlog List.mem_cons_self) (hclean.not_mem rfl)

private theorem silent_parityFindings : Silent (parityFindings offset) ↔ offset % 2 = 0 := by
  rw [parityFindings, Silent.ite, Silent.singleton]
  constructor
  · intro h
    rcases Nat.mod_two_eq_zero_or_one offset with heven | hodd
    · exact heven
    · cases h hodd
  · intro heven hodd
    omega

/-- A directory that was read with nothing found conforms. -/
theorem conforms_of_read (h : (read c kind index offset budget).result = .ok (some d))
    (hlog : (read c kind index offset budget).findings ⊆ log) (hclean : Clean log) :
    d.Conforms c kind := by
  have hfaithful := faithful_of_read h hlog
  obtain ⟨count, raw, t, hbytes, hrun, hd, hfindings⟩ := read_ok_some h
  obtain ⟨head, body, _, hbody, hmin, _⟩ := readBytes_ok hbytes
  obtain ⟨fs, hlength, hruns⟩ := Intake.run_ok hrun
  have htfields : t.fields.toList = fs := hruns.fields
  have hfields : d.fields = fs := by rw [hd]; exact htfields
  have hoffset : d.offset = offset := by rw [hd]; rfl
  rw [hfindings] at hlog
  obtain ⟨hread, hrules⟩ := List.append_subset.mp hlog
  obtain ⟨hrules, hembedded⟩ := List.append_subset.mp hrules
  obtain ⟨hpacket, hstream⟩ := List.append_subset.mp hembedded
  have hsilent := hclean.silent hread
  rw [Silent.append, silent_parityFindings] at hsilent
  have hcheck := DirectoryRules.silent_check.mp (hclean.silent hrules)
  have hconforms : ∀ f ∈ d.fields, ∃ t, f.Conforms c.encoding.order c.source.length t := by
    intro f hf
    obtain ⟨area, harea, hdata⟩ := hfaithful.hasData hf
    have hchecks := hruns.checks f (hfields ▸ hf)
    exact hdata.conforms hclean harea fun g hg => hsilent.2 g (hchecks hg)
  refine ⟨?_, ?_, ?_, ?_, hconforms _, ?_, ?_, ?_, ?_, ?_⟩
  · rw [hoffset]
    exact hsilent.1
  · rw [hoffset, hfields, hlength]
    exact Source.le_of_read hbody
  · rw [hfields, hlength]
    exact hmin
  · rw [hfields, ← htfields]
    exact hruns.ascending hsilent.2 List.Pairwise.nil
  · intro r hexempt hmain hr
    exact (hcheck hexempt).1 hmain r hr
  · intro hexempt
    exact hasImageData hconforms (hcheck hexempt).2.1
  · intro hexempt
    exact (hcheck hexempt).2.2
  · intro f hfind hsize
    exact Clean.packet hclean hpacket hfind hsize
  · intro start length hstart hlength
    exact Clean.stream hclean hstream hstart hlength

end Directory
end ImageAudit.Tiff
