import ImageAudit.Proofs.Jpeg.Definitions
import ImageAudit.Proofs.Jpeg.Huffman.CanonicalCode

/-! Huffman table segments. They are accepted exactly if they are definitions one behind the other,
each within the limits of the frame and with a canonical code, and the last definition of a class
and destination is the one that is kept. -/
namespace ImageAudit.Jpeg

namespace Huffman

variable {tableClass id : Nat} {counts : List Nat} {symbols : Array UInt8} {t : Table}

/-- The table with the canonical codes of these counts, which are consecutive in each length. -/
def Table.ofCounts (tableClass id : Nat) (counts : List Nat) (symbols : Array UInt8) : Table where
  tableClass := tableClass
  id := id
  counts := counts
  symbols := symbols
  sizes := Huffman.sizes counts
  codes := (Huffman.groups counts).flatMap fun g => List.range' g.first g.count
  groups := (Huffman.groups counts).toArray

theorem not_overflows_zero (counts : List Nat) : ¬ Overflows counts 0 := by
  rw [Overflows, occupied_zero]
  decide

/-- What is built, and from which counts. -/
theorem Table.build_eq_ok_iff (hcounts : counts.length = maxLength) :
    Table.build tableClass id counts symbols = .ok t ↔
      total counts ≤ maxSymbols ∧ kraftSum counts < 1 ∧
        t = .ofCounts tableClass id counts symbols := by
  have hlengths : 0 + maxLength = counts.length := by omega
  constructor
  · intro h
    obtain ⟨htotal, codes, hcodes, rfl⟩ := Table.eq_of_build h
    have hassign : assign maxLength (0 + 1) (2 * occupied counts 0)
        (sizesFrom 0 (counts.drop 0)) = .ok codes := by
      rw [occupied_zero]
      exact hcodes
    have hfrom : assign counts.length (0 + 1) 0 (sizesFrom 0 counts) = .ok codes :=
      hcounts.symm ▸ hcodes
    have hroom : ¬ ∃ length ≤ maxLength, Overflows counts length := by
      rintro ⟨length, hle, hover⟩
      cases length with
      | zero => exact not_overflows_zero counts hover
      | succ length =>
        exact not_overflows_of_assign hlengths hassign (Nat.succ_pos length)
          (hcounts.symm ▸ hle) hover
    rw [exists_overflows_iff, not_not] at hroom
    refine ⟨htotal, hroom, ?_⟩
    rw [codes_eq_of_assign hfrom]
    rfl
  · rintro ⟨htotal, hkraft, rfl⟩
    have hroom : ¬ ∃ length ≤ maxLength, Overflows counts length :=
      fun hover => exists_overflows_iff.mp hover hkraft
    obtain ⟨codes, hcodes⟩ :=
      exists_assign hlengths fun l _ hl hover => hroom ⟨l, hcounts ▸ hl, hover⟩
    rw [Table.build_eq_map_assign _ _ _ htotal, hcodes]
    rw [occupied_zero, List.drop_zero] at hcodes
    have hfrom : assign counts.length (0 + 1) 0 (sizesFrom 0 counts) = .ok codes :=
      hcounts.symm ▸ hcodes
    rw [codes_eq_of_assign hfrom]
    rfl

/-- A definition: class and destination, how many codes there are of each length, and their
symbols. -/
structure Definition where
  tableClass : Nat
  destination : Nat
  counts : List UInt8
  symbols : List UInt8

namespace Definition

def numbers (d : Definition) : List Nat := d.counts.map UInt8.toNat

structure Valid (frame : Option Frame) (d : Definition) : Prop where
  class_le : d.tableClass ≤ 1
  class_eq : ∀ f, frame = some f → f.isLossless = true → d.tableClass = 0
  destination_le : d.destination ≤ 3
  destination_le_one : ∀ f, frame = some f → f.isBaseline = true → d.destination ≤ 1
  length_counts : d.counts.length = 16
  total_le : total d.numbers ≤ 256
  kraftSum_lt : kraftSum d.numbers < 1
  length_symbols : d.symbols.length = total d.numbers

def bytes (d : Definition) : List UInt8 :=
  nibbles d.tableClass d.destination :: (d.counts ++ d.symbols)

def table (d : Definition) : Table :=
  .ofCounts d.tableClass d.destination d.numbers d.symbols.toArray

end Definition

def format (frame : Option Frame) : DefinitionFormat Definition where
  Valid := Definition.Valid frame
  bytes := Definition.bytes
  bytes_ne_nil _ := List.cons_ne_nil _ _

variable {frame : Option Frame} {d : Definition} {cursor : Segment}

theorem limitFindings_eq_nil {limits : Limits} :
    limitFindings limits tableClass id = [] ↔
      tableClass ≤ limits.tableClass ∧ id ≤ limits.destination := by
  rw [limitFindings, List.append_eq_nil_iff]
  refine and_congr ?_ ?_ <;> split <;> simp <;> omega

theorem limits_iff : tableClass ≤ (Limits.ofFrame frame).tableClass ∧
    id ≤ (Limits.ofFrame frame).destination ↔
      tableClass ≤ 1 ∧ (∀ f, frame = some f → f.isLossless = true → tableClass = 0) ∧
      id ≤ 3 ∧ (∀ f, frame = some f → f.isBaseline = true → id ≤ 1) := by
  cases frame with
  | none => simp [Limits.ofFrame]
  | some f =>
    cases hlossless : f.isLossless <;> cases hbaseline : f.isBaseline <;>
      simp [Limits.ofFrame, hlossless, hbaseline] <;> omega

/-- A valid definition is read. -/
theorem readDefinition_of_valid {more : List UInt8} (h : d.Valid frame)
    (hrest : cursor.rest = d.bytes ++ more) :
    (readDefinition (.ofFrame frame) cursor).1 = .ok d.table ∧
      (readDefinition (.ofFrame frame) cursor).2.rest = more := by
  have hclass := h.class_le
  have hdestination := h.destination_le
  rw [Definition.bytes, List.cons_append, List.append_assoc] at hrest
  obtain ⟨hdiv, hmod, hnext⟩ := uint_of_nibbles (by omega) (by omega) hrest
  have hfaults : limitFindings (.ofFrame frame) d.tableClass d.destination = [] :=
    limitFindings_eq_nil.mpr (limits_iff.mpr
      ⟨hclass, h.class_eq, hdestination, h.destination_le_one⟩)
  obtain ⟨hcounts, hmiddle⟩ := Segment.getData_of_append hnext
  obtain ⟨hsymbols, hbehind⟩ := Segment.getData_of_append hmiddle
  have hleft : ¬ (cursor.uint 1).2.left < maxLength := by
    rw [← Segment.length_rest, hnext, List.length_append, h.length_counts]
    exact Nat.not_lt_of_le (Nat.le_add_right _ _)
  have hmiddleLeft : ¬ ((cursor.uint 1).2.getData d.counts.length).2.left < total d.numbers := by
    rw [← Segment.length_rest, hmiddle, List.length_append, h.length_symbols]
    omega
  have hbuild : Table.build d.tableClass d.destination d.numbers d.symbols.toArray = .ok d.table :=
    (Table.build_eq_ok_iff ((List.length_map _).trans h.length_counts)).mpr
      ⟨h.total_le, h.kraftSum_lt, rfl⟩
  rw [h.length_counts, ← show maxLength = 16 from rfl] at hcounts hmiddleLeft hsymbols hbehind
  rw [h.length_symbols] at hsymbols hbehind
  rw [readDefinition]
  simp only [hdiv, hmod, hfaults, List.isEmpty_nil, Bool.not_true, Bool.false_eq_true, if_false,
    if_neg hleft, hcounts]
  rw [show List.map UInt8.toNat d.counts = d.numbers from rfl]
  rw [if_neg fun hshort => hmiddleLeft hshort.2, hsymbols, hbuild]
  exact ⟨rfl, hbehind⟩

/-- Only a valid definition gives a table. -/
theorem exists_of_readDefinition (hleft : cursor.left ≠ 0)
    (h : (readDefinition (.ofFrame frame) cursor).1 = .ok t) :
    ∃ d : Definition, d.Valid frame ∧ d.bytes <+: cursor.rest := by
  obtain ⟨b, more, hrest, hvalue, hnext⟩ := exists_uint_of_left hleft
  rw [readDefinition] at h
  dsimp only at h
  rw [hvalue] at h
  split at h
  · cases h
  · next hfaults =>
    split at h
    · cases h
    · next henough =>
      split at h
      · cases h
      · next hsymbols =>
        split at h
        · next built hbuild =>
          rw [← Segment.length_rest, hnext] at henough
          rw [Segment.toList_getData, hnext] at hbuild hsymbols
          rw [← Segment.length_rest, Segment.rest_getData, hnext] at hsymbols
          have hcounts : (more.take maxLength).length = maxLength :=
            List.length_take_of_le (Nat.le_of_not_lt henough)
          obtain ⟨htotal, hkraft, _⟩ :=
            (Table.build_eq_ok_iff ((List.length_map _).trans hcounts)).mp hbuild
          have hlimits : b.toNat / 16 ≤ (Limits.ofFrame frame).tableClass ∧
              b.toNat % 16 ≤ (Limits.ofFrame frame).destination :=
            limitFindings_eq_nil.mp (by simpa using hfaults)
          obtain ⟨hclass, hlossless, hdestination, hbaseline⟩ := limits_iff.mp hlimits
          have hall : total ((more.take maxLength).map UInt8.toNat) ≤
              (more.drop maxLength).length := by omega
          refine ⟨⟨b.toNat / 16, b.toNat % 16, more.take maxLength, (more.drop maxLength).take
            (total ((more.take maxLength).map UInt8.toNat))⟩, ?_, ?_⟩
          · exact ⟨hclass, hlossless, hdestination, hbaseline, hcounts, htotal, hkraft,
              List.length_take_of_le hall⟩
          · rw [Definition.bytes, nibbles_div_mod, hrest]
            refine List.cons_prefix_cons.mpr ⟨rfl, ?_⟩
            rw [← List.take_add]
            exact List.take_prefix _ _
        · cases h

/-- What was found fault with in a definition is told. -/
theorem ne_nil_of_readDefinition {limits : Limits} {findings : List Finding}
    (h : (readDefinition limits cursor).1 = .error findings) : findings ≠ [] := by
  rw [readDefinition] at h
  dsimp only at h
  split at h
  · next hfaults =>
    cases h
    simpa using hfaults
  · split at h
    · cases h
      exact List.cons_ne_nil _ _
    · split at h
      · cases h
        exact List.cons_ne_nil _ _
      · split at h <;> cases h
        exact List.cons_ne_nil _ _

theorem format_readBy (frame : Option Frame) :
    (format frame).ReadBy Definition.table (readDefinition (.ofFrame frame)) where
  of_valid := readDefinition_of_valid
  exists_valid := exists_of_readDefinition
  ne_nil := ne_nil_of_readDefinition

theorem readTables_loopOf (limits : Limits) :
    DefinitionFormat.LoopOf (readDefinition limits) Tables.store (readTables limits) where
  of_end s hleft := by rw [readTables, dif_pos hleft]
  of_error s hleft h := by rw [readTables, dif_neg hleft, h]
  of_ok s hleft h := by rw [readTables, dif_neg hleft, h]

namespace Tables

theorem get?_store (tables : Tables) (hclass : t.tableClass ≤ 1) (hid : t.id < Slots.count)
    (c : TableClass) (id : Nat) :
    (tables.store t).get? c id =
      if t.tableClass == c.index && t.id == id then some t else tables.get? c id := by
  obtain hdc | hac : t.tableClass = 0 ∨ t.tableClass = 1 := by omega
  · rw [store, hdc]
    cases c with
    | dc =>
      refine (Slots.get?_set hid).trans ?_
      simp [TableClass.index, get?, slots]
    | ac => rfl
  · rw [store, hac]
    cases c with
    | dc => rfl
    | ac =>
      refine (Slots.get?_set hid).trans ?_
      simp [TableClass.index, get?, slots]

end Tables

def oneCode (symbol : UInt8) : Definition := ⟨0, 1, 1 :: List.replicate 15 0, [symbol]⟩

theorem valid_oneCode (symbol : UInt8) : (oneCode symbol).Valid none where
  class_le := Nat.zero_le 1
  class_eq _ h := by cases h
  destination_le := (by decide : 1 ≤ 3)
  destination_le_one _ h := by cases h
  length_counts := rfl
  total_le := (by decide : 1 ≤ 256)
  kraftSum_lt := by
    change kraftSum (1 :: List.replicate 15 0) < 1
    rw [kraftSum_lt_one_iff]
    decide
  length_symbols := rfl

def oneCodeMarker : Marker :=
  ⟨MarkerId.defineHuffman, some 38, 2, 1,
    ⟨6, ⟨((oneCode 5).bytes ++ (oneCode 7).bytes).toArray⟩, .bigEndian, 0⟩⟩

end Huffman

namespace Stream

/-- A segment of Huffman tables is accepted exactly if it consists of definitions. Those that stand
in front are kept in any case, of each class and destination the last one, and nothing else
changes. -/
theorem takeHuffman_keeps_last (s : Stream) (m : Marker) (hclean : s.findings = []) :
    ((s.takeHuffman m).1.findings = [] ↔
      ∃ defs : List Huffman.Definition, (∀ d ∈ defs, d.Valid s.frame) ∧
        m.segment.rest = defs.flatMap Huffman.Definition.bytes) ∧
    (∃ defs rest, (Huffman.format s.frame).Splits m.segment.rest defs rest) ∧
    (∀ defs rest, (Huffman.format s.frame).Splits m.segment.rest defs rest →
      ∀ c id, (s.takeHuffman m).1.huffman.get? c id =
        ((defs.reverse.find? fun d => d.tableClass == c.index && d.destination == id).map
          Huffman.Definition.table).or (s.huffman.get? c id)) ∧
    ∃ huffman findings, (s.takeHuffman m).1 = { s with huffman, findings } := by
  have hfindings : (s.takeHuffman m).1.findings =
      (Huffman.readTables (.ofFrame s.frame) m.segment s.huffman).2.2 := by
    change s.findings ++ _ = _
    rw [hclean, List.nil_append]
  have hloop := Huffman.readTables_loopOf (.ofFrame s.frame)
  have hread := Huffman.format_readBy s.frame
  refine ⟨?_, (Huffman.format s.frame).exists_splits _, fun defs rest hsplits c id => ?_,
    _, _, rfl⟩
  · rw [hfindings]
    exact hloop.findings_eq_nil_iff hread _ _
  · change (Huffman.readTables (.ofFrame s.frame) m.segment s.huffman).1.get? c id = _
    rw [(hloop.of_splits hread hsplits _).1,
      foldl_last (fun tables : Huffman.Tables => tables.get? c id)
        (fun t : Huffman.Table => t.tableClass == c.index && t.id == id) (fun tables t ht => ?_),
      ← List.map_reverse, List.find?_map]
    · rfl
    · obtain ⟨d, hd, rfl⟩ := List.mem_map.mp ht
      have hvalid := hsplits.valid d hd
      exact Huffman.Tables.get?_store tables hvalid.class_le
        (Nat.lt_succ_of_le hvalid.destination_le) c id

/-- The second definition is kept. -/
theorem takeHuffman_keeps_last_twice :
    (empty false).findings = [] ∧
      ((empty false).takeHuffman Huffman.oneCodeMarker).1.findings = [] ∧
      ((empty false).takeHuffman Huffman.oneCodeMarker).1.huffman.get? .dc 1 =
        some (Huffman.oneCode 7).table := by
  have hvalid : ∀ d ∈ [Huffman.oneCode 5, Huffman.oneCode 7], d.Valid none := by
    simp [Huffman.valid_oneCode]
  have hrest : Huffman.oneCodeMarker.segment.rest =
      [Huffman.oneCode 5, Huffman.oneCode 7].flatMap Huffman.Definition.bytes := by
    simp [Huffman.oneCodeMarker, Segment.rest]
  obtain ⟨haccepts, _, hkeeps, _⟩ :=
    takeHuffman_keeps_last (empty false) Huffman.oneCodeMarker rfl
  refine ⟨rfl, haccepts.mpr ⟨_, hvalid, hrest⟩, ?_⟩
  rw [hkeeps _ [] (.of_flatMap hvalid hrest)]
  rfl

end Stream
end ImageAudit.Jpeg
