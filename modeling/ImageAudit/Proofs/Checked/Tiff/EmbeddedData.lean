import ImageAudit.Proofs.Checked.Jpeg.Stream
import ImageAudit.Proofs.Checked.Tiff.Directory
import ImageAudit.Tiff.EmbeddedData

/-! Data of other formats with operations that can go wrong. The bytes behind the header of a packet
are cut out where the header was found to end, and a stream is looked at through a window that was
held against the source before. -/
namespace ImageAudit

open Checked

namespace Xmp

def place? (pattern : List UInt8) : List UInt8 → Option Nat
  | [] => if pattern.isEmpty then some 0 else none
  | b :: rest =>
    if pattern.isPrefixOf (b :: rest) then some 0 else (place? pattern rest).map (· + 1)

def checkedCheck (data : ByteArray) : Checked (List Finding) :=
  match place? header data.data.toList with
  | none => pure [.noHeader]
  | some place => do
    let start ← add maxWord place header.length
    let rest ← slice data start data.size
    pure (if (place? trailer rest.data.toList).isSome then [] else [.noTrailer])

/-- A pattern ends inside the bytes that it occurs in. -/
theorem add_length_le_of_place? {pattern data : List UInt8} {place : Nat}
    (h : place? pattern data = some place) : place + pattern.length ≤ data.length := by
  induction data generalizing place with
  | nil =>
    rw [place?] at h
    split at h
    · next hempty =>
      obtain rfl := Option.some.inj h
      rw [List.isEmpty_iff.mp hempty]
      exact Nat.le_refl _
    · cases h
  | cons b rest ih =>
    rw [place?] at h
    split at h
    · next hprefix =>
      obtain rfl := Option.some.inj h
      rw [Nat.zero_add]
      exact (List.isPrefixOf_iff_prefix.mp hprefix).length_le
    · obtain ⟨place, hplace, rfl⟩ := Option.map_eq_some_iff.mp h
      rw [List.length_cons, Nat.add_right_comm]
      exact Nat.succ_le_succ (ih hplace)

theorem after?_eq (pattern data : List UInt8) :
    after? pattern data =
      (place? pattern data).map fun place => data.drop (place + pattern.length) := by
  induction data with
  | nil =>
    rw [after?, place?]
    split <;> simp
  | cons b rest ih =>
    rw [after?, place?]
    split
    · rw [Option.map_some, Nat.zero_add]
    · rw [ih, Option.map_map]
      congr 1
      funext place
      rw [Function.comp_apply, Nat.add_right_comm, List.drop_succ_cons]

theorem checkedCheck_eq {data : ByteArray} (h : data.size ≤ maxWord) :
    checkedCheck data = pure (check data.data.toList) := by
  rw [checkedCheck, check, after?_eq]
  cases hplace : place? header data.data.toList with
  | none => rfl
  | some place =>
    have hinside : place + header.length ≤ data.size := add_length_le_of_place? hplace
    have hrest : (data.extract (place + header.length) data.size).data.toList =
        data.data.toList.drop (place + header.length) := by
      rw [ByteArray.data_extract, Array.toList_extract, List.extract_eq_take_drop]
      exact List.take_of_length_le (by rw [List.length_drop]; exact Nat.le_refl _)
    rw [Option.map_some]
    dsimp only
    rw [add_eq (by omega), pure_bind, slice_eq hinside (Nat.le_refl _), pure_bind, hrest,
      after?_eq, Option.isSome_map]

end Xmp

namespace Tiff.EmbeddedData

def checkedPacketFindings (d : Directory) : Checked (List Xmp.Finding) := do
  match ← d.checkedFind Tag.xmp with
  | some f => if f.raw.size = f.count then Xmp.checkedCheck f.raw else pure []
  | none => pure []

def checkedStreamFindings (narrow : Nat → Checked Nat) (settings : Settings) (input : Input)
    (d : Directory) : Checked (List ImageAudit.Finding) := do
  let offset ← d.checkedWord Tag.embeddedOffset
  let length ← d.checkedWord Tag.embeddedLength
  match offset, length with
  | some offset, some length =>
    if input.source.hasSection offset length then do
      let decoder ← (Jpeg.Decoder.new settings true).checkedProcess narrow
        (.window input offset length)
      pure (decoder.stream.findings.map .jpeg)
    else pure [.tiff (.embeddedStreamOutsideFile offset length)]
  | _, _ => pure []

def checkedCheck (narrow : Nat → Checked Nat) (settings : Settings) (input : Input)
    (d : Directory) : Checked (List ImageAudit.Finding) := do
  let packet ← checkedPacketFindings d
  let stream ← checkedStreamFindings narrow settings input d
  pure (packet.map .xmp ++ stream)

variable {d : Directory} {input : Input}

theorem checkedPacketFindings_eq (hraw : ∀ f ∈ d.fields, f.raw.size ≤ maxWord) :
    checkedPacketFindings d = pure (packetFindings d) := by
  rw [checkedPacketFindings, Directory.checkedFind_eq, pure_bind, packetFindings]
  cases hfound : d.find? Tag.xmp with
  | none => rfl
  | some f =>
    dsimp only
    split
    · exact Xmp.checkedCheck_eq (hraw f (List.mem_of_find?_eq_some hfound))
    · rfl

theorem checkedStreamFindings_eq (h : input.Valid) (settings : Settings) (d : Directory) :
    checkedStreamFindings (cut maxHalf) settings input d =
      pure (streamFindings settings input.source d) := by
  simp only [checkedStreamFindings, streamFindings, Directory.checkedWord_eq, pure_bind]
  cases d.word? Tag.embeddedOffset with
  | none => rfl
  | some offset =>
    cases d.word? Tag.embeddedLength with
    | none => rfl
    | some length =>
      dsimp only
      split
      · next hsection =>
        have hwindow : (Input.window input offset length).Valid := ⟨h, hsection⟩
        rw [Jpeg.Decoder.checkedProcess_eq hwindow, pure_bind]
        rfl
      · rfl

theorem checkedCheck_eq (h : input.Valid) (hraw : ∀ f ∈ d.fields, f.raw.size ≤ maxWord)
    (settings : Settings) :
    checkedCheck (cut maxHalf) settings input d = pure (check settings input.source d) := by
  rw [checkedCheck, checkedPacketFindings_eq hraw, pure_bind, checkedStreamFindings_eq h,
    pure_bind, check]

end Tiff.EmbeddedData
end ImageAudit
