import ImageAudit.Jpeg.Stream
import ImageAudit.Proofs.Checked.Input
import ImageAudit.Proofs.Checked.Jpeg.Huffman
import Mathlib.Algebra.Ring.Nat

/-! Well-formed frames, scans and tables. A payload that is taken in without a finding leaves a
stream well-formed; a definition that is stored is well-formed whatever is found behind it. -/
namespace ImageAudit.Jpeg

def FrameClass.Codes : FrameClass → (p : Nat) → Prop
  | .baseline, p => p = 8
  | .extended, p | .progressive, p => p = 8 ∨ p = 12
  | .lossless, p => 2 ≤ p ∧ p ≤ 16

theorem FrameClass.allowsPrecision_iff {c : FrameClass} {p : Nat} :
    c.allowsPrecision p = true ↔ c.Codes p := by
  cases c <;> simp [allowsPrecision, Codes]

structure FrameComponent.WellFormed (frameClass : FrameClass) (c : FrameComponent) : Prop where
  horizontal_pos : 1 ≤ c.horizontal
  horizontal_le : c.horizontal ≤ 4
  vertical_pos : 1 ≤ c.vertical
  vertical_le : c.vertical ≤ 4
  selector_le : c.quantizationSelector ≤ if frameClass = .lossless then 0 else 3

structure Scan.WellFormed (f : Frame) (s : Scan) : Prop where
  components_pos : 1 ≤ s.components.length
  components_le : s.components.length ≤ 4
  distinct : (s.components.map (·.id)).Nodup
  defined : ∀ c ∈ s.components, ∃ d ∈ f.components, d.id = c.id
  parameters : f.frameClass ≠ .progressive → f.frameClass ≠ .lossless →
    s.spectralStart = 0 ∧ s.spectralEnd = 63 ∧ s.approxHigh = 0 ∧ s.approxLow = 0

structure Frame.WellFormed (f : Frame) : Prop where
  frameClass : FrameClass.ofMarker? f.marker = some f.frameClass
  precision : f.frameClass.Codes f.precision
  width_pos : 1 ≤ f.width
  components_pos : 1 ≤ f.components.length
  components_le : f.components.length ≤ if f.frameClass = .progressive then 4 else 255
  distinct : (f.components.map (·.id)).Nodup
  component : ∀ c ∈ f.components, c.WellFormed f.frameClass
  scan : ∀ s ∈ f.scans, s.WellFormed f

/-- A table that was built from sixteen counts of a byte each and as many symbols as they sum
to. -/
structure Huffman.Table.WellFormed (t : Table) : Prop where
  counts_length : t.counts.length = 16
  counts_le : ∀ count ∈ t.counts, count ≤ 255
  symbols_size : t.symbols.size = t.counts.sum
  symbols_le : t.symbols.size ≤ 256
  built : build t.tableClass t.id t.counts t.symbols = .ok t

def Huffman.Tables.WellFormed (tables : Tables) : Prop :=
  ∀ c id t, tables.get? c id = some t → t.tableClass = c.index ∧ t.id = id ∧ t.WellFormed

/-- Every table stands at the place that it names and has elements of one or two bytes. -/
def Quantization.WellFormed (tables : Slots Table) : Prop :=
  ∀ id t, tables.get? id = some t → t.id = id ∧ (t.precision = 0 ∨ t.precision = 1)

structure Stream.WellFormed (s : Stream) : Prop where
  frame : ∀ f, s.frame = some f → f.WellFormed
  huffman : s.huffman.WellFormed
  quantization : Quantization.WellFormed s.quantization

private theorem unless_eq_nil_iff {p : Prop} [Decidable p] {finding : Finding} :
    (if p then [] else [finding]) = [] ↔ p := by
  split <;> simp_all

private theorem when_eq_nil_iff {p : Prop} [Decidable p] {finding : Finding} :
    (if p then [finding] else []) = [] ↔ ¬ p := by
  split <;> simp_all

namespace Frame

variable {f : Frame} {m : Marker}

theorem find?_eq_none_iff {id : Nat} : f.find? id = none ↔ ∀ d ∈ f.components, d.id ≠ id := by
  simp [find?]

theorem isSome_find?_iff {id : Nat} :
    (f.find? id).isSome = true ↔ ∃ d ∈ f.components, d.id = id := by
  simp [find?]

/-- A component with a new id is added at the end. -/
theorem addComponent_of_new {c : FrameComponent} (h : ∀ d ∈ f.components, d.id ≠ c.id) :
    f.addComponent c = { f with components := f.components ++ [c] } := by
  rw [addComponent, find?_eq_none_iff.mpr h]
  rfl

theorem isSampling_iff {factor : Nat} : isSampling factor = true ↔ 1 ≤ factor ∧ factor ≤ 4 := by
  rw [isSampling, Bool.and_eq_true, decide_eq_true_eq, decide_eq_true_eq, minSampling, maxSampling]

theorem componentFindings_eq_nil_iff {c : FrameComponent} :
    f.componentFindings c = [] ↔
      c.WellFormed f.frameClass ∧ ∀ d ∈ f.components, d.id ≠ c.id := by
  have hselector : f.frameClass.maxQuantizationSelector =
      if f.frameClass = .lossless then 0 else 3 := by
    cases f.frameClass <;> rfl
  rw [← find?_eq_none_iff, componentFindings, hselector]
  simp only [List.append_eq_nil_iff, unless_eq_nil_iff, when_eq_nil_iff, isSampling_iff,
    Bool.not_eq_true, Option.isSome_eq_false_iff, Option.isNone_iff_eq_none]
  constructor
  · rintro ⟨⟨⟨⟨hh, hh'⟩, hv, hv'⟩, hs⟩, hnone⟩
    exact ⟨⟨hh, hh', hv, hv', hs⟩, hnone⟩
  · rintro ⟨⟨hh, hh', hv, hv', hs⟩, hnone⟩
    exact ⟨⟨⟨⟨hh, hh'⟩, hv, hv'⟩, hs⟩, hnone⟩

/-- Records without a finding are all kept, behind the components that are there. -/
theorem readComponents_keeps {count : Nat} {cursor : Segment}
    (hclean : (readComponents count f cursor).2.2 = [])
    (hdistinct : (f.components.map (·.id)).Nodup)
    (hcomponent : ∀ c ∈ f.components, c.WellFormed f.frameClass) :
    ∃ more, (readComponents count f cursor).1 = { f with components := f.components ++ more } ∧
      more.length = count ∧ ((f.components ++ more).map (·.id)).Nodup ∧
      ∀ c ∈ f.components ++ more, c.WellFormed f.frameClass := by
  induction count generalizing f cursor with
  | zero => exact ⟨[], by simp [readComponents], rfl, by simpa using hdistinct, by simpa using hcomponent⟩
  | succ count ih =>
    simp only [readComponents, List.append_eq_nil_iff] at hclean ⊢
    obtain ⟨hfirst, hrest⟩ := hclean
    generalize (readComponent cursor).1 = c at *
    obtain ⟨hwell, hnew⟩ := componentFindings_eq_nil_iff.mp hfirst
    rw [addComponent_of_new hnew] at hrest ⊢
    obtain ⟨more, heq, hlength, hnodup, hall⟩ := ih hrest
      (by simpa [List.nodup_append, hdistinct] using hnew)
      (List.forall_mem_append.mpr ⟨hcomponent, List.forall_mem_singleton.mpr hwell⟩)
    refine ⟨c :: more, ?_, by rw [List.length_cons, hlength], ?_, ?_⟩
    · simpa using heq
    · simpa using hnodup
    · simpa using hall

theorem headerFindings_eq_nil_iff {count : Nat} :
    f.headerFindings count = [] ↔ f.frameClass.Codes f.precision ∧ f.width ≠ 0 ∧ 1 ≤ count ∧
      (f.frameClass = .progressive → count ≤ 4) := by
  have hprogressive : f.isProgressive = true ↔ f.frameClass = .progressive := beq_iff_eq
  simp only [headerFindings, List.append_eq_nil_iff, unless_eq_nil_iff, when_eq_nil_iff,
    FrameClass.allowsPrecision_iff, beq_iff_eq, and_assoc]
  refine and_congr_right fun _ => and_congr_right fun _ => ?_
  split
  · next hcount => simp; omega
  · next hcount =>
    rw [when_eq_nil_iff, Bool.and_eq_true, decide_eq_true_eq, hprogressive, not_and, Nat.not_lt,
      maxProgressiveComponents]
    exact ⟨fun h => ⟨Nat.le_of_not_lt hcount, h⟩, fun h => h.2⟩

/-- A frame that is read without a finding is well-formed. -/
theorem wellFormed_ofPayload {frameClass : FrameClass}
    (hclass : FrameClass.ofMarker? m.id = some frameClass)
    (hclean : (ofPayload m frameClass).2.2 = []) : (ofPayload m frameClass).1.WellFormed := by
  simp only [ofPayload] at hclean ⊢
  have hcount := Segment.uint_le_maxByte (((m.segment.uint 1).2.uint 2).2.uint 2).2
  generalize ((((m.segment.uint 1).2.uint 2).2.uint 2).2.uint 1) = last at *
  generalize (((m.segment.uint 1).2.uint 2).2.uint 2).1 = width at *
  generalize ((m.segment.uint 1).2.uint 2).1 = height at *
  generalize (m.segment.uint 1).1 = precision at *
  split at hclean
  · simp at hclean
  · next hlength =>
    rw [if_neg hlength]
    obtain ⟨hheader, hcomponents⟩ := List.append_eq_nil_iff.mp hclean
    obtain ⟨hprecision, hwidth, hpos, hprogressive⟩ := headerFindings_eq_nil_iff.mp hheader
    obtain ⟨more, heq, hmore, hdistinct, hall⟩ := readComponents_keeps hcomponents
      List.nodup_nil (fun c hc => nomatch hc)
    dsimp only at heq ⊢
    rw [heq]
    exact {
      frameClass := hclass
      precision := hprecision
      width_pos := Nat.one_le_iff_ne_zero.mpr hwidth
      components_pos := by simpa [hmore] using hpos
      components_le := by
        simp only [List.nil_append, hmore]
        split
        · next h => exact hprogressive h
        · exact hcount
      distinct := hdistinct
      component := hall
      scan := fun s hs => nomatch hs }

/-- A frame is read without a finding only if there was none before. -/
theorem wellFormed_read {existing : Option Frame} (hclean : (read m existing).2.2 = [])
    (h : ∀ g, existing = some g → g.WellFormed) (hread : (read m existing).1 = some f) :
    f.WellFormed := by
  unfold read at hclean hread
  dsimp only at hclean hread
  generalize (_ ++ _ : List Finding) = refusals at hclean hread
  cases refusals with
  | cons _ _ => exact h f hread
  | nil =>
    cases hclass : FrameClass.ofMarker? m.id with
    | none =>
      rw [hclass] at hread
      exact h f hread
    | some frameClass =>
      rw [hclass] at hclean hread
      obtain rfl := Option.some.inj hread
      exact wellFormed_ofPayload hclass hclean

end Frame

namespace Scan

variable {f : Frame} {m : Marker}

theorem componentFindings_eq_nil_iff {seen : List Nat} {components : List ScanComponent} :
    componentFindings f seen components = [] ↔
      (∀ c ∈ components, ∃ d ∈ f.components, d.id = c.id) ∧
        (components.map (·.id)).Nodup ∧ ∀ c ∈ components, c.id ∉ seen := by
  induction components generalizing seen with
  | nil => simp [componentFindings]
  | cons c rest ih =>
    rw [componentFindings, List.append_eq_nil_iff, List.append_eq_nil_iff, when_eq_nil_iff,
      when_eq_nil_iff, ih, List.forall_mem_cons, List.forall_mem_cons, List.map_cons,
      List.nodup_cons, ← Frame.isSome_find?_iff]
    simp only [Bool.not_eq_true, Option.isNone_eq_false_iff, List.contains_eq_mem,
      decide_eq_false_iff_not, List.mem_cons, not_or, List.mem_map, not_exists, not_and]
    constructor
    · rintro ⟨⟨hc, hseen⟩, hrest, hnodup, hnew⟩
      exact ⟨⟨hc, hrest⟩, ⟨fun d hd => (hnew d hd).1, hnodup⟩, hseen, fun d hd => (hnew d hd).2⟩
    · rintro ⟨⟨hc, hrest⟩, ⟨hnew, hnodup⟩, hseen, hold⟩
      exact ⟨⟨hc, hseen⟩, hrest, hnodup, fun d hd => ⟨hnew d hd, hold d hd⟩⟩

theorem length_readComponents (count : Nat) (cursor : Segment) :
    (readComponents count cursor).1.length = count := by
  induction count generalizing cursor with
  | zero => rfl
  | succ count ih => exact congrArg Nat.succ (ih _)

theorem parameterFindings_eq_nil_iff {s : Scan} :
    parameterFindings f s = [] ↔ (f.frameClass ≠ .progressive → f.frameClass ≠ .lossless →
      s.spectralStart = 0 ∧ s.spectralEnd = 63 ∧ s.approxHigh = 0 ∧ s.approxLow = 0) := by
  rw [parameterFindings, when_eq_nil_iff]
  simp only [Frame.isProgressive, Frame.isLossless, isSequential, Bool.and_eq_true, Bool.not_eq_true',
    beq_eq_false_iff_ne, ne_eq, Bool.not_eq_false, beq_iff_eq, and_assoc, not_and]

/-- A scan that is read without a finding is well-formed. -/
theorem wellFormed_read (hclean : (read m f).2.2 = []) :
    ∃ scan, (read m f).1 = some scan ∧ scan.WellFormed f := by
  simp only [read] at hclean ⊢
  generalize m.segment.uint 1 = start at *
  have hlength := length_readComponents start.1 start.2
  generalize readComponents start.1 start.2 = listed at *
  generalize listed.2.uint 1 = spectralStart at *
  generalize spectralStart.2.uint 1 = spectralEnd at *
  generalize spectralEnd.2.uint 1 = approximation at *
  split at hclean
  · cases hclean
  next hcount =>
  rw [if_neg hcount]
  split at hclean
  · cases hclean
  next hfits =>
  rw [if_neg hfits]
  simp only [Bool.or_eq_true, decide_eq_true_eq, not_or, Nat.not_lt] at hcount
  obtain ⟨hcomponents, hparameters⟩ := List.append_eq_nil_iff.mp hclean
  obtain ⟨hdefined, hdistinct, _⟩ := componentFindings_eq_nil_iff.mp hcomponents
  exact ⟨_, rfl, hlength.symm ▸ hcount.1, hlength.symm ▸ hcount.2, hdistinct, hdefined,
    parameterFindings_eq_nil_iff.mp hparameters⟩

end Scan

theorem Frame.WellFormed.addScan {f : Frame} {scan : Scan} (h : f.WellFormed)
    (hscan : scan.WellFormed f) : Frame.WellFormed { f with scans := f.scans ++ [scan] } := by
  have hkeep : ∀ s : Scan, s.WellFormed f → s.WellFormed { f with scans := f.scans ++ [scan] } :=
    fun s hs => ⟨hs.components_pos, hs.components_le, hs.distinct, hs.defined, hs.parameters⟩
  exact {
    frameClass := h.frameClass
    precision := h.precision
    width_pos := h.width_pos
    components_pos := h.components_pos
    components_le := h.components_le
    distinct := h.distinct
    component := h.component
    scan := List.forall_mem_append.mpr
      ⟨fun s hs => hkeep s (h.scan s hs), List.forall_mem_singleton.mpr (hkeep scan hscan)⟩ }

theorem TableClass.index_of_ofIndex? {n : Nat} {c : TableClass} (h : ofIndex? n = some c) :
    n = c.index := by
  unfold ofIndex? at h
  split at h <;> cases h <;> rfl

namespace Huffman

variable {limits : Limits} {cursor : Segment} {tables : Tables} {t : Table}

theorem Tables.wellFormed_empty : Tables.empty.WellFormed := by
  intro c id t h
  have hnone : (Slots.empty : Slots Table).get? id = some t := by cases c <;> exact h
  rw [Slots.get?_empty] at hnone
  cases hnone

/-- A table is put at the place that it names, and no other place changes. -/
theorem Tables.WellFormed.store (h : tables.WellFormed) (ht : t.WellFormed) :
    (tables.store t).WellFormed := by
  intro c id u hget
  rw [Tables.store] at hget
  split at hget
  · next hclass =>
    cases c with
    | ac => exact h .ac id u hget
    | dc =>
      rcases Slots.of_get?_set hget with ⟨rfl, rfl⟩ | hold
      · exact ⟨TableClass.index_of_ofIndex? hclass, rfl, ht⟩
      · exact h .dc id u hold
  · next hclass =>
    cases c with
    | dc => exact h .dc id u hget
    | ac =>
      rcases Slots.of_get?_set hget with ⟨rfl, rfl⟩ | hold
      · exact ⟨TableClass.index_of_ofIndex? hclass, rfl, ht⟩
      · exact h .ac id u hold
  · exact h c id u hget

/-- A table that is built from bytes, with as many symbols as the counts sum to. -/
theorem Table.wellFormed_of_build {tableClass id : Nat} {counts : List UInt8} {symbols : Array UInt8}
    (hcounts : counts.length = 16) (hsymbols : symbols.size = total (counts.map UInt8.toNat))
    (h : Table.build tableClass id (counts.map UInt8.toNat) symbols = .ok t) : t.WellFormed := by
  obtain ⟨htotal, codes, _, rfl⟩ := Table.eq_of_build h
  exact {
    counts_length := (List.length_map _).trans hcounts
    counts_le := by
      intro count hmem
      obtain ⟨b, _, rfl⟩ := List.mem_map.mp hmem
      exact Nat.le_of_lt_succ b.toNat_lt
    symbols_size := hsymbols
    symbols_le := hsymbols ▸ htotal
    built := h }

/-- A definition is read as a table only if all its symbols are there. -/
theorem wellFormed_readDefinition (h : (readDefinition limits cursor).1 = .ok t) :
    t.WellFormed := by
  simp only [readDefinition] at h
  split at h
  · cases h
  split at h
  · cases h
  next hleft =>
  have hcounts := Segment.size_getData _ (Nat.le_of_not_lt hleft)
  generalize (cursor.uint 1).2.getData maxLength = counted at h hcounts
  split at h
  · cases h
  next hsymbols =>
  split at h
  · next built hbuild =>
    obtain rfl := Except.ok.inj h
    have htotal := (Table.eq_of_build hbuild).1
    have henough := Nat.le_of_not_lt fun hless => hsymbols ⟨htotal, hless⟩
    exact Table.wellFormed_of_build hcounts (Segment.size_getData _ henough) hbuild
  · cases h

theorem wellFormed_readTables (h : tables.WellFormed) :
    (readTables limits cursor tables).1.WellFormed := by
  fun_induction readTables limits cursor tables with
  | case1 => exact h
  | case2 => exact h
  | case3 _ _ _ _ _ hresult ih => exact ih (h.store (wellFormed_readDefinition hresult))

end Huffman

namespace Quantization

variable {cursor : Segment} {tables : Slots Table} {t : Table}

theorem precision_of_elementSize? {precision size : Nat}
    (h : elementSize? precision = some size) : precision = 0 ∨ precision = 1 := by
  unfold elementSize? at h
  split at h
  · exact .inl rfl
  · exact .inr rfl
  · cases h

theorem precision_of_readDefinition (h : (readDefinition cursor).1 = .ok t) :
    t.precision = 0 ∨ t.precision = 1 := by
  simp only [readDefinition] at h
  split at h
  · cases h
  · next hsize =>
    split at h
    · cases h
    · split at h
      · cases h
      · obtain rfl := Except.ok.inj h
        exact precision_of_elementSize? hsize

/-- A table is put at the place that it names, and no other place changes. -/
theorem WellFormed.set (h : WellFormed tables) (ht : t.precision = 0 ∨ t.precision = 1) :
    WellFormed (tables.set t.id t) := by
  intro id u hget
  rcases Slots.of_get?_set hget with ⟨rfl, rfl⟩ | hold
  · exact ⟨rfl, ht⟩
  · exact h id u hold

theorem wellFormed_readTables (h : WellFormed tables) :
    WellFormed (readTables cursor tables).1 := by
  fun_induction readTables cursor tables with
  | case1 => exact h
  | case2 => exact h
  | case3 _ _ _ _ _ hresult ih => exact ih (h.set (precision_of_readDefinition hresult))

end Quantization

namespace Stream

variable {s : Stream} {m : Marker}

theorem wellFormed_empty (embedded : Bool) : (empty embedded).WellFormed where
  frame := fun f hframe => by cases hframe
  huffman := Huffman.Tables.wellFormed_empty
  quantization := by
    intro id t h
    rw [empty, Slots.get?_empty] at h
    cases h

/-- A scan header that is taken in without a finding adds a scan to the frame and changes nothing
else. -/
theorem exists_takeScan_eq (hclean : (s.takeScan m).1.findings = []) :
    ∃ f scan, s.frame = some f ∧ scan.WellFormed f ∧
      (s.takeScan m).1 = { s with frame := some { f with scans := f.scans ++ [scan] } } := by
  unfold takeScan at hclean ⊢
  split at hclean
  · simp [report] at hclean
  · next f hframe =>
    have hread := @Scan.wellFormed_read f m
    generalize Scan.read m f = result at hclean hread ⊢
    obtain ⟨found, segment, findings⟩ := result
    obtain ⟨hbefore, rfl⟩ := List.append_eq_nil_iff.mp hclean
    obtain ⟨scan, rfl, hwell⟩ := hread rfl
    exact ⟨f, scan, hframe, hwell, by simp [reportAll]⟩

theorem WellFormed.takeScan (h : s.WellFormed) (hclean : (s.takeScan m).1.findings = []) :
    (s.takeScan m).1.WellFormed := by
  obtain ⟨f, scan, hframe, hscan, heq⟩ := exists_takeScan_eq hclean
  rw [heq]
  refine ⟨fun g hg => ?_, h.huffman, h.quantization⟩
  rw [← Option.some.inj hg]
  exact (h.frame f hframe).addScan hscan

/-- Taking in a marker without a finding keeps a stream well-formed. -/
theorem WellFormed.take (h : s.WellFormed) (hclean : (s.take m).1.findings = []) :
    (s.take m).1.WellFormed := by
  unfold Stream.take at hclean ⊢
  split at hclean
  · next hframe =>
    rw [if_pos hframe]
    have hall : s.findings ++ (Frame.read m s.frame).2.2 = [] := hclean
    obtain ⟨_, hread⟩ := List.append_eq_nil_iff.mp hall
    exact ⟨fun f hf => Frame.wellFormed_read hread h.frame hf, h.huffman, h.quantization⟩
  next hframe =>
  rw [if_neg hframe]
  split at hclean
  · next hscan =>
    rw [if_pos hscan]
    exact h.takeScan hclean
  next hscan =>
  rw [if_neg hscan]
  split at hclean
  · next hhuffman =>
    rw [if_pos hhuffman]
    exact ⟨h.frame, Huffman.wellFormed_readTables h.huffman, h.quantization⟩
  next hhuffman =>
  rw [if_neg hhuffman]
  split at hclean
  · next hquantization =>
    rw [if_pos hquantization]
    exact ⟨h.frame, h.huffman, Quantization.wellFormed_readTables h.quantization⟩
  next hquantization =>
  rw [if_neg hquantization]
  split
  · simp only [takeRestartInterval]
    split <;> exact ⟨h.frame, h.huffman, h.quantization⟩
  · exact h

end Stream
end ImageAudit.Jpeg
