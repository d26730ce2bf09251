import ImageAudit.Inspection.Decoders
import ImageAudit.Proofs.Tiff.Conformance

/-! The verdict on a file. When a file is passed, its header, its chain and all of its directories
are as the format asks. -/
namespace ImageAudit.Tiff

structure Header.StoredIn (h : Header) (bytes : List UInt8) (first : Nat) : Prop where
  order : Header.orderOf? (bytesAt bytes 0 2) = some h.order
  version : h.version = h.order.intAt bytes 2 2
  known : h.version = classicVersion ∨ h.version = bigVersion
  layout : h.isBig = true →
    h.order.intAt bytes 4 2 = bigOffsetSize ∧ h.order.intAt bytes 6 2 = 0
  first : first =
    h.order.intAt bytes (if h.isBig then 8 else 4) (Segment.offsetWidth h.isBig)

def DirectoryTree.Complete (tree : DirectoryTree) : Prop :=
  Linked (fun _ => False) (fun _ => False) tree

/-- The directories of a valid file: the chain runs from the first offset to zero, every directory
conforms, and none that is listed is left out. -/
structure Description.IsValid (d : Description) (c : Context) (first : Nat) : Prop where
  chain : Chained first d.mainDirectories 0
  empty : d.mainDirectories = [] ↔ first = 0
  conforms {p : Placement} : p ∈ d.survey.placements → p.directory.Conforms c p.kind
  complete {tree : DirectoryTree} : tree ∈ d.survey.directories.toList → tree.Complete

theorem intAt_bytesAt (order : ByteOrder) {bytes : List UInt8} {start count index width : Nat}
    (h : index + width ≤ count) :
    order.intAt (bytesAt bytes start count) index width =
      order.intAt bytes (start + index) width := by
  rw [ByteOrder.intAt, ByteOrder.intAt, bytesAt, bytesAt, bytesAt, List.drop_take, List.take_take,
    List.drop_drop, Nat.min_eq_left (by omega)]

/-- A read of a file in memory gets its bytes. -/
theorem bytes_of_read {name : String} {data got : ByteArray} {offset count : Nat}
    (h : (Source.ofBytes name data).read offset count = .ok got) :
    got.data.toList = bytesAt data.data.toList offset count := by
  rw [Source.read] at h
  split at h
  · obtain rfl := Except.ok.inj h
    rw [ByteArray.data_extract, Array.toList_extract, List.extract_eq_take_drop,
      Nat.add_sub_cancel_left]
    rfl
  · cases h

namespace Header

variable {name : String} {data : ByteArray} {header : Header}

private theorem severity_of_read {source : Source} {finding : Finding}
    (h : read source = .error finding) : finding.severity = .error := by
  unfold read ofBytes at h
  split at h
  · obtain rfl := Except.error.inj h
    rfl
  · split at h
    · obtain rfl := Except.error.inj h
      rfl
    · dsimp only at h
      split at h
      · cases h
      · obtain rfl := Except.error.inj h
        rfl

private theorem severity_of_takeLayout {rest : Segment} {finding : Finding}
    (h : header.takeLayout rest = .error finding) : finding.severity = .error := by
  rw [takeLayout] at h
  split at h
  · dsimp only at h
    split at h
    · obtain rfl := Except.error.inj h
      rfl
    · split at h
      · obtain rfl := Except.error.inj h
        rfl
      · cases h
  · cases h

private theorem severity_of_firstOffset {source : Source} {finding : Finding}
    (h : header.firstOffset source = .error (.defect finding)) : finding.severity = .error := by
  rw [firstOffset] at h
  split at h
  · cases h
  · split at h
    · next hoffset =>
      obtain rfl := Obstacle.defect.inj (Except.error.inj h)
      rw [takeOffset] at hoffset
      split at hoffset
      · next hlayout =>
        obtain rfl := Except.error.inj hoffset
        exact severity_of_takeLayout hlayout
      · dsimp only at hoffset
        split at hoffset
        · cases hoffset
        · obtain rfl := Except.error.inj hoffset
          rfl
    · cases h

private theorem read_ok (h : read (.ofBytes name data) = .ok header) :
    orderOf? (bytesAt data.data.toList 0 2) = some header.order ∧
      header.version = header.order.intAt data.data.toList 2 2 ∧
      (header.version = classicVersion ∨ header.version = bigVersion) := by
  rw [read] at h
  split at h
  · cases h
  · next bytes hread =>
    have hsignature : bytes.data.toList.take 2 = bytesAt data.data.toList 0 2 := by
      rw [bytes_of_read hread, bytesAt, List.take_take]
      rfl
    have hversion : bytes.data.toList.drop 2 = bytesAt data.data.toList 2 2 := by
      rw [bytes_of_read hread, bytesAt, List.drop_take, List.drop_drop]
      rfl
    rw [ofBytes, hsignature, hversion] at h
    split at h
    · cases h
    · next order horder =>
      dsimp only at h
      split at h
      · next hknown =>
        obtain rfl := Except.ok.inj h
        exact ⟨horder, rfl, hknown⟩
      · cases h

variable {bytes : List UInt8} {rest next : Segment} {start : Nat}

private theorem takeLayout_ok (h : header.takeLayout rest = .ok next)
    (horder : rest.order = header.order) (hrest : rest.rest = bytes.drop start)
    (hle : header.isBig = true → start + 4 ≤ bytes.length) :
    (header.isBig = true → header.order.intAt bytes start 2 = bigOffsetSize ∧
      header.order.intAt bytes (start + 2) 2 = 0) ∧ next.order = header.order ∧
    next.rest = bytes.drop (if header.isBig then start + 4 else start) := by
  rw [takeLayout] at h
  by_cases hbig : header.isBig = true
  · have hle := hle hbig
    rw [if_pos hbig] at h ⊢
    cases hsize : rest.uint 2 with | mk size c₁ => ?_
    cases hzero : c₁.uint 2 with | mk reserved c₂ => ?_
    simp only [hsize, hzero] at h
    obtain ⟨hsize, ho, hr⟩ := Segment.uint_of_rest hsize hrest (by omega)
    obtain ⟨hzero, ho', hr⟩ := Segment.uint_of_rest hzero hr (by omega)
    split at h
    · cases h
    · next hs =>
      split at h
      · cases h
      · next hz =>
        obtain rfl := Except.ok.inj h
        rw [horder] at hsize ho
        rw [ho] at hzero ho'
        refine ⟨fun _ => ⟨?_, ?_⟩, ho', hr⟩
        · rw [← hsize]
          exact Decidable.of_not_not hs
        · rw [← hzero]
          exact Decidable.of_not_not hz
  · rw [if_neg hbig] at h ⊢
    obtain rfl := Except.ok.inj h
    exact ⟨fun hb => absurd hb hbig, horder, hrest⟩

private theorem takeOffset_ok {fileLength first : Nat}
    (h : header.takeOffset rest fileLength = .ok first) (horder : rest.order = header.order)
    (hrest : rest.rest = bytes.drop start)
    (hle : start + (header.size - signatureSize) ≤ bytes.length) :
    (header.isBig = true → header.order.intAt bytes start 2 = bigOffsetSize ∧
      header.order.intAt bytes (start + 2) 2 = 0) ∧
    first = header.order.intAt bytes (if header.isBig then start + 4 else start)
      (Segment.offsetWidth header.isBig) := by
  have hend : (if header.isBig then start + 4 else start) + Segment.offsetWidth header.isBig =
      start + (header.size - signatureSize) := by
    rw [size]
    cases header.isBig <;> rfl
  rw [takeOffset] at h
  split at h
  · cases h
  · next next hlayout =>
    dsimp only at h
    split at h
    · obtain rfl := Except.ok.inj h
      obtain ⟨hbig, ho, hr⟩ := takeLayout_ok hlayout horder hrest fun hb => by
        rw [hb, if_pos rfl] at hend
        omega
      obtain ⟨hvalue, _⟩ := Segment.uint_of_rest (Prod.eta _).symm hr (hend ▸ hle)
      refine ⟨hbig, hvalue.trans ?_⟩
      rw [ho]
    · cases h

private theorem firstOffset_ok {first : Nat}
    (h : header.firstOffset (.ofBytes name data) = .ok first) :
    (header.isBig = true → header.order.intAt data.data.toList 4 2 = bigOffsetSize ∧
      header.order.intAt data.data.toList 6 2 = 0) ∧
    first = header.order.intAt data.data.toList (if header.isBig then 8 else 4)
      (Segment.offsetWidth header.isBig) := by
  rw [firstOffset] at h
  split at h
  · cases h
  · next got hread =>
    have hgot := bytes_of_read hread
    have hlength : got.data.toList.length = header.size - signatureSize :=
      Source.size_read hread
    split at h
    · cases h
    · next offset hoffset =>
      obtain rfl := Except.ok.inj h
      have hstart : (⟨signatureSize, got, header.order, 0⟩ : Segment).rest =
          got.data.toList.drop 0 := rfl
      obtain ⟨hbig, hvalue⟩ := takeOffset_ok hoffset rfl hstart (by omega)
      rw [hgot, size, signatureSize] at hbig hvalue
      refine ⟨fun hb => ?_, hvalue.trans ?_⟩
      · have hlayout := hbig hb
        rw [hb, intAt_bytesAt _ (by decide), intAt_bytesAt _ (by decide)] at hlayout
        exact hlayout
      · cases header.isBig <;> exact intAt_bytesAt _ (by decide)

end Header

/-- Nothing is lost or cut in a walk that finds nothing. -/
theorem Survey.accounts_of_clean {c : Context} {log : List ImageAudit.Finding} (h : Clean log) :
    Accounts c log (fun _ => False) (fun _ => False) where
  lost := by
    intro s t kind index offset he hlog
    rcases (accounts c log).lost he hlog with hmem | hmem | ⟨count, hmem⟩
    · exact absurd hmem (h.not_mem rfl)
    · exact absurd hmem (h.not_mem rfl)
    · exact absurd hmem (h.not_mem rfl)
  cut hmem := absurd hmem (h.not_mem rfl)

namespace Description

/-- A walk that ends with nothing found makes a valid description. -/
theorem isValid_walk (c : Context) (first : Nat) {d : Description} {budget : Budget}
    (h : d.survey = .start budget) (hok : (d.walk c first).1 = .ok ())
    (hclean : Clean (d.walk c first).2.findings) : (d.walk c first).2.IsValid c first := by
  obtain ⟨hfollows, hlog, hread⟩ := walk_readings c h first
  obtain ⟨⟨stop, hchain, hstop⟩, hlinked⟩ :=
    (Survey.accounts_of_clean hclean).follows hfollows (hlog ▸ List.Subset.refl _)
  obtain ⟨t, hw⟩ := walk_ok hok
  rw [h] at hw
  obtain rfl : stop = 0 := (hstop t hw).resolve_right id
  refine ⟨hchain, ⟨?_, ?_⟩, ?_, hlinked _⟩
  · intro hempty
    rw [Chained] at hchain
    rw [mainDirectories] at hempty
    rw [hempty] at hchain
    exact (List.cons.inj hchain).1
  · rintro rfl
    rw [mainDirectories]
    cases hd : (d.walk c 0).2.survey.directories.toList with
    | nil => rfl
    | cons tree trees =>
      rw [hd] at hfollows
      cases hfollows with
      | next h0 _ _ => exact absurd rfl h0
  · intro p hp
    obtain ⟨index, left, hresult, hfound⟩ := hread p hp
    exact Directory.conforms_of_read hresult hfound hclean

theorem checkBaseline_keeps (d : Description) :
    d.checkBaseline.header = d.header ∧
    d.checkBaseline.survey.directories = d.survey.directories ∧
    d.findings ⊆ d.checkBaseline.findings := by
  rw [checkBaseline]
  split
  · exact ⟨rfl, rfl, List.Subset.refl _⟩
  · rw [findings_foldl_report, foldl_report]
    exact ⟨rfl, rfl, List.subset_append_left _ _⟩

theorem isValid_of_directories {c : Context} {d e : Description} {first : Nat}
    (h : e.survey.directories = d.survey.directories) (hd : d.IsValid c first) :
    e.IsValid c first := by
  have hmains : e.mainDirectories = d.mainDirectories := by
    rw [mainDirectories, mainDirectories, h]
  have hplacements : e.survey.placements = d.survey.placements := by
    rw [Survey.placements, Survey.placements, h]
  refine ⟨hmains ▸ hd.chain, hmains ▸ hd.empty, ?_, ?_⟩
  · intro p hp
    exact hd.conforms (hplacements ▸ hp)
  · intro tree htree
    exact hd.complete (h ▸ htree)

private theorem severity_of_report {d : Description} {finding : Finding}
    (h : Clean (d.report finding).findings) : finding.severity = .info := by
  have hmem : .tiff finding ∈ (d.report finding).findings := by
    simp [findings, report, Survey.report]
  exact h _ hmem

/-- What follows the header is valid if nothing is found in it. -/
private theorem isValid_check {d : Description} {budget : Budget} {settings : Settings}
    {header : Header} {source : Source} (h : d.survey = .start budget)
    (hclean : Clean (d.check settings header source).findings) :
    ∃ first, header.firstOffset source = .ok first ∧
      (d.check settings header source).header = d.header ∧
      (d.check settings header source).IsValid ⟨source, settings, header.encoding⟩ first := by
  rw [check] at hclean ⊢
  cases hfirst : header.firstOffset source with
  | error obstacle =>
    rw [hfirst] at hclean
    cases obstacle with
    | defect finding =>
      have hinfo := severity_of_report hclean
      rw [Header.severity_of_firstOffset hfirst] at hinfo
      cases hinfo
    | failure cause => cases severity_of_report hclean
  | ok first =>
    rw [hfirst] at hclean
    refine ⟨first, rfl, ?_⟩
    dsimp only at hclean ⊢
    have hvalid := isValid_walk ⟨source, settings, header.encoding⟩ first h
    have hheader := header_walk ⟨source, settings, header.encoding⟩ first d
    cases hwalk : d.walk ⟨source, settings, header.encoding⟩ first with | mk result after => ?_
    rw [hwalk] at hclean hvalid hheader
    cases result with
    | error cause => cases severity_of_report hclean
    | ok u =>
      dsimp only at hclean ⊢
      by_cases hbaseline : settings.baseline = true
      · rw [if_pos hbaseline] at hclean ⊢
        obtain ⟨hkeep, hdirectories, hfindings⟩ := after.checkBaseline_keeps
        have hafter : Clean after.findings := fun g hg => hclean g (hfindings hg)
        exact ⟨hkeep.trans hheader, isValid_of_directories hdirectories (hvalid rfl hafter)⟩
      · rw [if_neg hbaseline] at hclean ⊢
        exact ⟨hheader, hvalid rfl hclean⟩

end Description

namespace Decoder

private theorem clean_of_success {d : Decoder} (h : d.verdict.log.isSuccess = true) :
    Clean d.description.findings := by
  intro g hg
  have hnone : d.verdict.log.any (·.severity.isProblem) = false := by
    simpa [Log.isSuccess, Log.hasProblem] using h
  have hevent := List.any_eq_false.mp hnone g.event (List.mem_map_of_mem hg)
  have hinfo : ¬(g.severity != .info) = true := hevent
  simpa using hinfo

/-- When a file is passed in check mode, it starts with a header, the chain of its main directories
runs from the first offset that the header gives to offset zero, and every directory, at whatever
level, conforms to the rules of the format. -/
theorem isValid_of_success (d : Decoder) (name : String) (data : ByteArray)
    (hmode : d.settings.mode = .check)
    (hok : (d.process (.ofBytes name data)).verdict.log.isSuccess = true) :
    ∃ header first, (d.process (.ofBytes name data)).description.header = some header ∧
      header.StoredIn data.data.toList first ∧
      (d.process (.ofBytes name data)).description.IsValid
        ⟨.ofBytes name data, d.settings, header.encoding⟩ first := by
  have hclean := clean_of_success hok
  have hmode : d.settings.isIdentify = false := by rw [Settings.isIdentify, hmode]; rfl
  rw [process, identify] at hclean ⊢
  dsimp only at hclean ⊢
  rw [Description.readHeader] at hclean ⊢
  cases hread : Header.read (.ofBytes name data) with
  | error finding =>
    rw [hread] at hclean
    have hinfo := Description.severity_of_report hclean
    rw [Header.severity_of_read hread] at hinfo
    cases hinfo
  | ok header =>
    rw [hread] at hclean
    dsimp only at hclean ⊢
    rw [hmode] at hclean ⊢
    obtain ⟨first, hfirst, hheader, hvalid⟩ := Description.isValid_check rfl hclean
    obtain ⟨horder, hversion, hknown⟩ := Header.read_ok hread
    obtain ⟨hlayout, hoffset⟩ := Header.firstOffset_ok hfirst
    exact ⟨header, first, hheader, ⟨horder, hversion, hknown, hlayout, hoffset⟩, hvalid⟩

def singleStrip : ByteArray := ⟨#[
  0x49, 0x49, 42, 0, 8, 0, 0, 0, 5, 0,
  0, 1, 3, 0, 1, 0, 0, 0, 1, 0, 0, 0,
  1, 1, 3, 0, 1, 0, 0, 0, 1, 0, 0, 0,
  6, 1, 3, 0, 1, 0, 0, 0, 1, 0, 0, 0,
  17, 1, 4, 0, 1, 0, 0, 0, 8, 0, 0, 0,
  23, 1, 4, 0, 1, 0, 0, 0, 1, 0, 0, 0,
  0, 0, 0, 0]⟩

theorem isValid_singleStrip :
    ((new {}).process (.ofBytes "" singleStrip)).description.mainDirectories.length = 1 ∧
    ∃ header first, ((new {}).process (.ofBytes "" singleStrip)).description.header = some header ∧
      header.StoredIn singleStrip.data.toList first ∧
      ((new {}).process (.ofBytes "" singleStrip)).description.IsValid
        ⟨.ofBytes "" singleStrip, {}, header.encoding⟩ first :=
  ⟨by decide +kernel, isValid_of_success (new {}) "" singleStrip rfl (by decide +kernel)⟩

end Decoder
end ImageAudit.Tiff
