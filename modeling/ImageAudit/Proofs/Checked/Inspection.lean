import ImageAudit.Proofs.Checked.Jpeg.Stream
import ImageAudit.Proofs.Checked.Message
import ImageAudit.Proofs.Checked.Tiff.Decoder
import ImageAudit.Proofs.Recognition

/-! Inspecting a file with operations that can go wrong. A decoder is first asked whether it
recognises the file and then has it judged. Nothing goes wrong on bytes in memory, seen through any
windows, and what comes out is what comes out without faults. -/
namespace ImageAudit

open Checked

namespace Report

def checkedIdentified (path format : String) (findings : List Finding) : Checked Report := do
  let log ← findings.mapM Finding.checkedEvent
  match Log.status log |>.key? with
  | none => pure ⟨path, some format, Log.status log, "", log⟩
  | some key => do
    let message ← Catalog.english.checkedText key []
    pure ⟨path, some format, Log.status log, message, log⟩

theorem checkedIdentified_eq (path format : String) (findings : List Finding) :
    checkedIdentified path format findings =
      pure (identified path format (findings.map Finding.event)) := by
  rw [checkedIdentified, mapM_eq fun f _ => f.checkedEvent_eq, pure_bind, identified]
  cases (Log.status (findings.map Finding.event)).key? with
  | none => rfl
  | some key =>
    dsimp only
    rw [Catalog.checkedText_eq, pure_bind]

end Report

def checkedFinish {α : Type} (settings : Settings) (recognised : α) (process : Checked α) :
    Checked α :=
  if settings.isIdentify then pure recognised else process

theorem checkedFinish_eq {α : Type} {settings : Settings} {recognised processed : α}
    (h : settings.isIdentify = true → processed = recognised) :
    checkedFinish settings recognised (pure processed) = pure processed := by
  rw [checkedFinish]
  split
  · next hmode => rw [h hmode]
  · rfl

namespace Decoders

/-- Has the file judged by the first decoder that recognises it. What `narrow` makes of the code of
a symbol is stored in sixteen bits. -/
def checkedInspect (narrow : Nat → Checked Nat) (d : Decoders) (settings : Settings)
    (input : Input) : Checked (Report × Decoders) := do
  let tiff ← d.tiff.checkedIdentify input
  if tiff.isIdentified then do
    let tiff ← checkedFinish settings tiff (tiff.checkedProcess narrow input)
    let report ← Report.checkedIdentified input.source.name tiff.shortName
      tiff.description.findings
    pure (report, { d with tiff })
  else do
    let jpeg ← d.jpeg.checkedIdentify input
    if jpeg.stream.identified then do
      let jpeg ← checkedFinish settings jpeg (jpeg.checkedProcess narrow input)
      let report ← Report.checkedIdentified input.source.name Jpeg.Decoder.shortName
        (jpeg.stream.findings.map .jpeg)
      pure (report, ⟨tiff, jpeg⟩)
    else pure (.unidentified input.source.name, ⟨tiff, jpeg⟩)

/-- No inspection of a valid input faults, whatever its bytes and the settings are. A code may be
cut off when it is stored, but not in a table that is kept: this one is built also where the cut
would be a fault. -/
theorem checkedInspect_eq (settings : Settings) {input : Input} (h : input.Valid) :
    (new settings).checkedInspect (cut maxHalf) settings input =
        pure ((new settings).inspect input.source) ∧
      ∀ tableClass id counts symbols (table : Jpeg.Huffman.Table),
        Jpeg.Huffman.Table.checkedBuild (cut maxHalf) tableClass id counts symbols =
            pure (.ok table) →
          Jpeg.Huffman.Table.checkedBuild (fit maxHalf) tableClass id counts symbols =
            pure (.ok table) := by
  refine ⟨?_, fun _ _ _ _ _ => Jpeg.Huffman.Table.checkedBuild_of_cut⟩
  have htiff : settings.isIdentify = true → (new settings).tiff.process input.source =
      (new settings).tiff.identify input.source :=
    fun hmode => Tiff.Decoder.process_of_isIdentify hmode
  have hjpeg : settings.isIdentify = true → (new settings).jpeg.process input.source =
      (new settings).jpeg.identify input.source :=
    fun hmode => Jpeg.Decoder.process_of_isIdentify hmode
  rw [checkedInspect, Tiff.Decoder.checkedIdentify_eq h, pure_bind, inspect]
  dsimp only
  rw [Tiff.Decoder.isIdentified_process, Tiff.Decoder.checkedProcess_eq h,
    Tiff.Decoder.process_identify]
  split
  · rw [checkedFinish_eq htiff, pure_bind, Report.checkedIdentified_eq, pure_bind]
    rfl
  · next hother =>
    rw [Jpeg.Decoder.checkedIdentify_eq h, pure_bind, Jpeg.Decoder.identified_process,
      Tiff.Decoder.process_of_not_isIdentified (eq_false_of_ne_true hother),
      Jpeg.Decoder.checkedProcess_eq h, Jpeg.Decoder.process_identify]
    split
    · rw [checkedFinish_eq hjpeg, pure_bind, Report.checkedIdentified_eq, pure_bind,
        List.map_map]
      rfl
    · next hneither =>
      rw [Jpeg.Decoder.process_of_not_identified (eq_false_of_ne_true hneither)]

def emptyImage : Input :=
  .window (.window (.memory "image" ⟨#[0, 0, 0xFF, 0xD8, 0xFF, 0xD9, 0]⟩) 1 6) 1 4

theorem checkedInspect_emptyImage :
    emptyImage.Valid ∧
      (new {}).checkedInspect (cut maxHalf) {} emptyImage =
        pure ((new {}).inspect emptyImage.source) ∧
      ((new {}).checkedInspect (cut maxHalf) {} emptyImage).map (·.1) =
        pure (.identified "image" Jpeg.Decoder.shortName []) ∧
      ∃ table, Jpeg.Huffman.Table.checkedBuild (cut maxHalf) 0 0 (List.replicate 16 1)
          (Array.replicate 16 7) = pure (.ok table) ∧
        Jpeg.Huffman.Table.checkedBuild (fit maxHalf) 0 0 (List.replicate 16 1)
          (Array.replicate 16 7) = pure (.ok table) := by
  obtain ⟨hinspect, hkept⟩ := checkedInspect_eq {} (by decide : emptyImage.Valid)
  exact ⟨by decide, hinspect, by decide +kernel, _, rfl, hkept _ _ _ _ _ rfl⟩

/-- One code of each length, and two more of the greatest one. -/
def overfull : Input :=
  .memory "image" ⟨#[0xFF, 0xD8, 0xFF, 0xC4, 0, 37,
    0, 1, 1, 1, 1, 1, 1, 1, 1, 1, 1, 1, 1, 1, 1, 1, 3,
    0, 0, 0, 0, 0, 0, 0, 0, 0, 0, 0, 0, 0, 0, 0, 0, 0, 0, 0xFF, 0xD9]⟩

/-- The last code is cut off when it is stored. The table is refused for its code lengths. -/
theorem checkedInspect_cuts_overfull :
    overfull.Valid ∧
      ((new {}).checkedInspect (fit maxHalf) {} overfull).map (·.1) = throw .overflow ∧
      ((new {}).checkedInspect (cut maxHalf) {} overfull).map (·.1) =
        pure (.identified "image" Jpeg.Decoder.shortName
          [Finding.event (.jpeg (.invalidHuffmanCodeLengths 16))]) := by
  refine ⟨by decide, ?_, ?_⟩
  · decide +kernel
  · decide +kernel

end Decoders
end ImageAudit
