import ImageAudit.Inspection.Decoders
import ImageAudit.Proofs.Checked.Input
import ImageAudit.Proofs.Jpeg.Agreement
import ImageAudit.Proofs.Tiff.Placement

/-! Streams inside other files. A window, with however many windows around it, cannot be told apart
from the bytes in it. So the stream that a directory refers to is judged as if its bytes were cut
out of the file, and no byte outside of them counts. -/
namespace ImageAudit

/-- A window of bytes in memory cannot be told apart from those bytes alone. -/
theorem Source.Agrees.window {s : Source} {name : String} {data : ByteArray} {start length : Nat}
    (h : s.Agrees (.ofBytes name data)) (hsection : s.hasSection start length = true)
    (other : String) :
    (s.window start length).Agrees (.ofBytes other (data.extract start (start + length))) := by
  obtain ⟨hword, hle⟩ := hasSection_iff.mp hsection
  rw [h.length_eq] at hle
  change start + length ≤ data.size at hle
  have hsize : (data.extract start (start + length)).size = length := by
    rw [ByteArray.size_extract]
    omega
  refine ⟨hsize.symm, fun offset count => ?_⟩
  change (if isSection offset count length then s.read (start + offset) count else _) =
    if isSection offset count (data.extract start (start + length)).size then _ else
      .error (.outOfRange offset count (data.extract start (start + length)).size)
  rw [hsize]
  split
  · next hinside =>
    obtain ⟨_, hle'⟩ := isSection_iff.mp hinside
    have hread : (ofBytes name data).hasSection (start + offset) count = true :=
      hasSection_iff.mpr ⟨by omega, by change _ ≤ data.size; omega⟩
    rw [h.read_eq, read, if_pos hread]
    change Except.ok _ = Except.ok _
    rw [ByteArray.extract_extract, Nat.add_assoc, Nat.min_eq_left (by omega)]
  · rfl

namespace Input

def bytes : Input → ByteArray
  | memory _ data => data
  | window inner start length => inner.bytes.extract start (start + length)

def Nested : Input → Prop
  | memory _ _ => True
  | window inner start length => inner.Nested ∧ inner.source.hasSection start length = true

theorem Nested.agrees {i : Input} (h : i.Nested) (name : String) :
    i.source.Agrees (.ofBytes name i.bytes) := by
  induction i generalizing name with
  | memory => exact ⟨rfl, fun _ _ => rfl⟩
  | window inner start length ih => exact (ih h.1 name).window h.2 name

end Input

def Finding.jpeg? : Finding → Option Jpeg.Finding
  | .jpeg f => some f
  | _ => none

namespace Finding

@[simp] theorem jpeg?_tiff (finding : Tiff.Finding) : (tiff finding).jpeg? = none := rfl

@[simp] theorem jpeg?_xmp (finding : Xmp.Finding) : (xmp finding).jpeg? = none := rfl

theorem filterMap_jpeg (findings : List Jpeg.Finding) :
    (findings.map Finding.jpeg).filterMap jpeg? = findings := by
  rw [List.filterMap_map]
  exact List.filterMap_some

end Finding

namespace Tiff

/-- The directory refers to a stream of `length` bytes at `start`, which lies in the source. -/
structure Directory.RefersTo (d : Directory) (source : Source) (start length : Nat) : Prop where
  offset_eq : d.word? Tag.embeddedOffset = some start
  length_eq : d.word? Tag.embeddedLength = some length
  inside : source.hasSection start length = true

namespace EmbeddedData

/-- What a decoder of embedded streams finds in the bytes that a directory refers to, cut out of
`data`. -/
def findingsIn (settings : Settings) (data : ByteArray) (d : Directory) : List Jpeg.Finding :=
  match d.word? Tag.embeddedOffset, d.word? Tag.embeddedLength with
  | some offset, some length =>
    if isSection offset length data.size then
      let decoder := Jpeg.Decoder.new settings true
      (decoder.process (.ofBytes "" (data.extract offset (offset + length)))).stream.findings
    else []
  | _, _ => []

variable {source : Source} {name : String} {data : ByteArray} {d : Directory}

/-- The stream that a directory refers to is judged by its bytes alone. -/
theorem streamFindings_eq (settings : Settings) (h : source.Agrees (.ofBytes name data))
    {start length : Nat} (href : d.RefersTo source start length) (other : String) :
    streamFindings settings source d =
      ((Jpeg.Decoder.new settings true).process
        (.ofBytes other (data.extract start (start + length)))).stream.findings.map .jpeg := by
  rw [streamFindings, href.offset_eq, href.length_eq]
  dsimp only
  rw [if_pos href.inside, Jpeg.Decoder.process_congr (h.window href.inside other)]

theorem jpeg_streamFindings (settings : Settings) (h : source.Agrees (.ofBytes name data))
    (d : Directory) :
    (streamFindings settings source d).filterMap Finding.jpeg? = findingsIn settings data d := by
  rw [findingsIn]
  split
  · next offset length hoffset hlength =>
    have hsame : source.hasSection offset length = isSection offset length data.size :=
      h.hasSection_eq offset length
    rw [← hsame]
    split
    · next hsection =>
      rw [streamFindings_eq settings h ⟨hoffset, hlength, hsection⟩ "", Finding.filterMap_jpeg]
    · next hsection =>
      rw [streamFindings, hoffset, hlength]
      dsimp only
      rw [if_neg hsection]
      rfl
  · next hnone =>
    rw [streamFindings]
    split
    · next offset length hoffset hlength => exact absurd hlength (hnone offset length hoffset)
    · rfl

end EmbeddedData

namespace Survey

def streamFindings (s : Survey) : List Jpeg.Finding := s.findings.toList.filterMap Finding.jpeg?

variable {c : Context} {kind : DirectoryKind} {index offset : Nat} {s t : Survey} {d : Directory}
  {name : String} {data : ByteArray}

theorem streamFindings_takeReading (s : Survey) (offset : Nat) (r : DirectoryReading) :
    (s.takeReading offset r).streamFindings =
      s.streamFindings ++ r.findings.filterMap Finding.jpeg? := by
  simp [streamFindings, takeReading]

@[simp] theorem streamFindings_report (s : Survey) (finding : Finding) :
    (s.report finding).streamFindings = s.streamFindings := by
  simp [streamFindings, report]

/-- The findings on the stream of a directory are the last ones that entering it adds. -/
theorem findings_enter (h : s.enter c kind index offset = .ok (some d) t) :
    ∃ own, own.filterMap Finding.jpeg? = [] ∧
      t.findings.toList = s.findings.toList ++ own ++
        EmbeddedData.streamFindings c.settings c.source d := by
  obtain ⟨_, hread, rfl⟩ := enter_ok_some h
  obtain ⟨_, _, u, _, _, _, hfindings⟩ := Directory.read_ok_some hread
  refine ⟨(Directory.parityFindings offset ++ u.findings.toList).map .tiff ++
    (DirectoryRules.check d kind index c.source.length).map .tiff ++
      (EmbeddedData.packetFindings d).map .xmp, by simp, ?_⟩
  simp [takeReading, hfindings, Directory.rulesFindings, EmbeddedData.check]

/-- A walk adds the findings on the streams that its directories refer to, one after another. -/
theorem summary_streamFindings (h : c.source.Agrees (.ofBytes name data)) :
    Summary c
      (fun s placements t => t.streamFindings = s.streamFindings ++
        placements.flatMap fun p => EmbeddedData.findingsIn c.settings data p.directory)
      (fun s t => s.streamFindings <+: t.streamFindings) where
  rest s := (List.append_nil _).symm
  append hst htu := by rw [htu, hst, List.flatMap_append, List.append_assoc]
  stop hst htu := by
    rw [hst] at htu
    exact (List.prefix_append _ _).trans htu
  entered _ _ he := by
    obtain ⟨own, hown, hfindings⟩ := findings_enter he
    simp [streamFindings, hfindings, hown, EmbeddedData.jpeg_streamFindings _ h]
  passed he := by
    obtain ⟨_, rfl⟩ | ⟨hread, rfl⟩ := enter_ok_none he
    · simp
    · obtain ⟨finding, _, hfindings⟩ := Directory.read_ok_none hread
      simp [streamFindings_takeReading, hfindings]
  failed he := by
    obtain ⟨_, rfl⟩ := enter_error he
    rw [streamFindings_takeReading]
    exact List.prefix_append _ _
  tooDeep s offset := by simp

end Survey

namespace Description

/-- The findings on streams after a walk are those on the streams that its directories refer to.
After a walk that failed there may be more, on streams of directories that were lost with it. -/
theorem streamFindings_walk {c : Context} {name : String} {data : ByteArray}
    (h : c.source.Agrees (.ofBytes name data)) (budget : Budget) (first : Nat) :
    let after := ((empty budget).walk c first).2.survey
    let found := after.placements.flatMap fun p =>
      EmbeddedData.findingsIn c.settings data p.directory
    found <+: after.streamFindings ∧
      (((empty budget).walk c first).1 = .ok () → after.streamFindings = found) := by
  intro after found
  obtain ⟨trees, hfollows⟩ := Survey.walk_follows c first (.start budget)
  have hafter : after = (Survey.walk c first (.start budget)).after :=
    survey_walk c first (empty budget)
  have hplacements : after.placements = DirectoryTree.placementsAll trees .main 0 := by
    rw [hafter, Survey.placements_follows hfollows]
    rfl
  have hsummary := (Survey.summary_streamFindings h).follows
    (fun s tree => (List.append_nil _).symm) hfollows
  have hfound : found = (DirectoryTree.placementsAll trees .main 0).flatMap fun p =>
      EmbeddedData.findingsIn c.settings data p.directory := by rw [← hplacements]
  have hresult : ((empty budget).walk c first).1 = .ok () →
      ∃ t, Survey.walk c first (.start budget) = .ok () t := fun hok => walk_ok hok
  rw [hfound, hafter]
  cases hwalk : Survey.walk c first (.start budget) with
  | ok u t =>
    rw [hwalk] at hsummary
    have hall : t.streamFindings = _ := hsummary
    exact ⟨hall ▸ List.prefix_rfl, fun _ => hall⟩
  | error cause t =>
    rw [hwalk] at hsummary hresult
    obtain ⟨u, hbefore, hfail⟩ := hsummary
    rw [hbefore] at hfail
    refine ⟨hfail, fun hok => ?_⟩
    obtain ⟨_, hsame⟩ := hresult hok
    cases hsame

end Description
end Tiff

open Tiff

/-- In nested windows a stream is read as if its bytes were cut out. So where a directory refers to a
stream in a file that can be read, what entering the directory adds last, and nothing before it, is
what an embedded decoder finds in the bytes that are referred to; and the findings on streams after
a walk are those on the streams of its directories, one after another. Other bytes do not matter. -/
theorem Input.streams_as_extracted :
    (∀ i : Input, i.Nested → ∀ name : String, i.source.Agrees (.ofBytes name i.bytes) ∧
      ∀ d : Jpeg.Decoder, d.process i.source = d.process (.ofBytes name i.bytes)) ∧
    (∀ (c : Context) (name : String) (data : ByteArray), c.source.Agrees (.ofBytes name data) →
      (∀ (kind : DirectoryKind) (index offset : Nat) (s t : Survey) (d : Directory)
          (start length : Nat) (other : String),
        s.enter c kind index offset = .ok (some d) t → d.RefersTo c.source start length →
        let decoder := (Jpeg.Decoder.new c.settings true).process
          (.ofBytes other (data.extract start (start + length)))
        ∃ own, own.filterMap Finding.jpeg? = [] ∧
          t.findings.toList =
            s.findings.toList ++ own ++ decoder.stream.findings.map .jpeg ∧
          t.findings.toList.map Finding.event =
            (s.findings.toList ++ own).map Finding.event ++ decoder.verdict.log) ∧
      ∀ (budget : Budget) (first : Nat),
        let after := ((Description.empty budget).walk c first).2.survey
        let found := after.placements.flatMap fun p =>
          EmbeddedData.findingsIn c.settings data p.directory
        found <+: after.streamFindings ∧
          (((Description.empty budget).walk c first).1 = .ok () →
            after.streamFindings = found)) ∧
    ∀ (settings : Settings) (source source' : Source) (name name' : String)
        (data data' : ByteArray) (d d' : Directory) (start start' length : Nat),
      source.Agrees (.ofBytes name data) → source'.Agrees (.ofBytes name' data') →
      d.RefersTo source start length → d'.RefersTo source' start' length →
      data.extract start (start + length) = data'.extract start' (start' + length) →
      EmbeddedData.streamFindings settings source d =
        EmbeddedData.streamFindings settings source' d' := by
  refine ⟨?_, ?_, ?_⟩
  · intro i h name
    exact ⟨h.agrees name, fun d => Jpeg.Decoder.process_congr (h.agrees name) d⟩
  · intro c name data hdata
    refine ⟨?_, Description.streamFindings_walk hdata⟩
    intro kind index offset s t d start length other henter href decoder
    obtain ⟨own, hown, hfindings⟩ := Survey.findings_enter henter
    rw [EmbeddedData.streamFindings_eq _ hdata href other] at hfindings
    refine ⟨own, hown, hfindings, ?_⟩
    rw [hfindings, List.map_append, List.map_map]
    rfl
  · intro settings source source' name name' data data' d d' start start' length hdata hdata' hd hd'
      hsame
    rw [EmbeddedData.streamFindings_eq settings hdata hd "",
      EmbeddedData.streamFindings_eq settings hdata' hd' "", hsame]

def Input.wrapped : Input :=
  .window (.window (.memory "" ⟨#[
    0, 0, 0,
    0x49, 0x49, 42, 0, 8, 0, 0, 0, 2, 0,
    1, 2, 4, 0, 1, 0, 0, 0, 38, 0, 0, 0,
    2, 2, 4, 0, 1, 0, 0, 0, 4, 0, 0, 0,
    0, 0, 0, 0,
    0xFF, 0xD8, 0, 0,
    0]⟩) 1 45) 2 42

theorem Input.streams_as_extracted_wrapped :
    let c : Context := ⟨wrapped.source, {}, ⟨.littleEndian, false⟩⟩
    let after := ((Description.empty .default).walk c 8).2.survey
    wrapped.Nested ∧ wrapped.bytes.extract 38 42 = ⟨#[0xFF, 0xD8, 0, 0]⟩ ∧
      after.streamFindings = [.invalidMarker "0x0000" 2] ∧
      after.streamFindings = after.placements.flatMap fun p =>
        EmbeddedData.findingsIn c.settings wrapped.bytes p.directory :=
  have hnested : wrapped.Nested := ⟨⟨trivial, by decide⟩, by decide⟩
  have hagrees := (streams_as_extracted.1 wrapped hnested "").1
  ⟨hnested, by decide, by decide +kernel,
    ((streams_as_extracted.2.1 ⟨wrapped.source, {}, ⟨.littleEndian, false⟩⟩ "" _ hagrees).2
      .default 8).2 (by decide +kernel)⟩

end ImageAudit
