import ImageAudit.Proofs.Recognition
import ImageAudit.Proofs.Tiff.PlanDirectory

/-! Byte orders make no difference. The two files that a plan makes, one with each byte order, are
judged by the same findings in the same order, and the directories read from them differ in nothing
but the order of the bytes of their numbers. -/
namespace ImageAudit.Tiff

namespace Survey

structure Alike (s t : Survey) : Prop where
  findings : s.findings = t.findings
  visited : s.visited = t.visited
  budget : s.budget = t.budget
  directories : s.directories.map DirectoryTree.blank = t.directories.map DirectoryTree.blank

variable {s t : Survey}

theorem Alike.report (h : s.Alike t) (finding : Finding) :
    (s.report finding).Alike (t.report finding) where
  findings := by
    change s.findings.push _ = t.findings.push _
    rw [h.findings]
  visited := h.visited
  budget := h.budget
  directories := h.directories

theorem Alike.takeReading {p : Plan} (h : s.Alike t) {r r' : DirectoryReading} (hr : p.Reads r r')
    (offset : Nat) : (s.takeReading offset r).Alike (t.takeReading offset r') where
  findings := by
    change s.findings ++ r.findings = t.findings ++ r'.findings
    rw [h.findings, hr.findings]
  visited := by
    change offset :: s.visited = offset :: t.visited
    rw [h.visited]
  budget := hr.budget
  directories := h.directories

theorem Alike.size_directories (h : s.Alike t) : s.directories.size = t.directories.size := by
  have hsize := congrArg Array.size h.directories
  rwa [Array.size_map, Array.size_map] at hsize

theorem Alike.addMain (h : s.Alike t) {tree tree' : DirectoryTree}
    (hblank : tree.blank = tree'.blank) : (s.addMain tree).Alike (t.addMain tree') where
  findings := h.findings
  visited := h.visited
  budget := h.budget
  directories := by
    change (s.directories.push tree).map _ = (t.directories.push tree').map _
    rw [Array.map_push, Array.map_push, h.directories, hblank]

/-- Both steps succeed with results in the relation `R` and surveys that are alike. -/
def StepsAlike {α : Type} (R : α → α → Prop) (r r' : Step α) : Prop :=
  ∃ a b s t, r = .ok a s ∧ r' = .ok b t ∧ R a b ∧ s.Alike t

end Survey

namespace Plan

open Survey (StepsAlike)

variable {p : Plan} {c₁ c₂ : Context} {s t : Survey}

/-- The same directory, if any, and one that refers to nothing but what the plan may refer to. -/
def SameDirectory (p : Plan) (found₁ found₂ : Option Directory) : Prop :=
  found₁.map Directory.blank = found₂.map Directory.blank ∧ ∀ found ∈ found₁, p.Follows found

def SameTree (p : Plan) (tree₁ tree₂ : Option DirectoryTree) : Prop :=
  tree₁.map DirectoryTree.blank = tree₂.map DirectoryTree.blank ∧
    ∀ tree ∈ tree₁, p.Follows tree.directory

/-- A directory is entered alike in both files. -/
theorem enter_alike (hp : p.Valid) (h : p.Twins c₁ c₂) {offset : Nat} (hrefers : p.Refers offset)
    (h0 : offset ≠ 0) (kind : DirectoryKind) (index : Nat) (hst : s.Alike t) :
    StepsAlike p.SameDirectory (s.enter c₁ kind index offset) (t.enter c₂ kind index offset) := by
  by_cases hv : offset ∈ s.visited
  · rw [Survey.enter_repeated c₁ kind index hv,
      Survey.enter_repeated c₂ kind index (hst.visited ▸ hv)]
    exact ⟨none, none, _, _, rfl, rfl, ⟨rfl, by simp⟩, hst.report _⟩
  · have hv' : offset ∉ t.visited := hst.visited ▸ hv
    have hreads := reads_read hp h hrefers h0 kind index s.budget
    have hnext := hst.takeReading hreads offset
    rw [Survey.enter_new hv, Survey.enter_new hv', ← hst.budget]
    rcases hreads.result with ⟨hr, hr'⟩ | ⟨found₁, found₂, hr, hr', hblank, hfollows⟩
    · rw [hr, hr']
      exact ⟨none, none, _, _, rfl, rfl, ⟨rfl, by simp⟩, hnext⟩
    · rw [hr, hr']
      refine ⟨some found₁, some found₂, _, _, rfl, rfl, ⟨congrArg some hblank, ?_⟩, hnext⟩
      intro found hmem
      obtain rfl := Option.some.inj hmem
      exact hfollows

/-- Lists of directories are read alike, if each directory is. -/
theorem readEach_alike {read₁ read₂ : Nat → Survey → Survey.Step (Option DirectoryTree)}
    {offsets : List Nat} (hread : ∀ offset ∈ offsets, ∀ s t : Survey, s.Alike t →
      StepsAlike p.SameTree (read₁ offset s) (read₂ offset t))
    {trees₁ trees₂ : Array DirectoryTree}
    (htrees : trees₁.map DirectoryTree.blank = trees₂.map DirectoryTree.blank) (hst : s.Alike t) :
    StepsAlike (fun a b => a.map DirectoryTree.blank = b.map DirectoryTree.blank)
      (Survey.readEach read₁ offsets trees₁ s) (Survey.readEach read₂ offsets trees₂ t) := by
  induction offsets generalizing trees₁ trees₂ s t with
  | nil => exact ⟨trees₁, trees₂, s, t, rfl, rfl, htrees, hst⟩
  | cons offset rest ih =>
    rw [List.forall_mem_cons] at hread
    obtain ⟨tree₁, tree₂, u, v, hr, hr', ⟨hblank, _⟩, huv⟩ := hread.1 s t hst
    rw [Survey.readEach, Survey.readEach, hr, hr']
    cases tree₁ with
    | none =>
      obtain rfl : tree₂ = none := by simpa using hblank.symm
      exact ih hread.2 htrees huv
    | some tree =>
      obtain ⟨tree', rfl, hsame⟩ : ∃ tree', tree₂ = some tree' ∧ tree'.blank = tree.blank := by
        simpa using hblank.symm
      refine ih hread.2 ?_ huv
      rw [Array.map_push, Array.map_push, htrees, hsame]

theorem refers_subOffsets {found : Directory} (h : p.Follows found) :
    ∀ offset ∈ found.subOffsets, p.Refers offset ∧ offset ≠ 0 := by
  intro offset hmem
  refine ⟨h.subOffsets offset hmem, ?_⟩
  rw [Directory.subOffsets] at hmem
  split at hmem
  · cases hmem
  · simpa using (List.mem_filter.mp hmem).2

theorem refers_gpsOffset {found : Directory} (h : p.Follows found) :
    ∀ offset ∈ found.gpsOffset?.toList, p.Refers offset ∧ offset ≠ 0 := by
  intro offset hmem
  rw [Option.mem_toList] at hmem
  refine ⟨h.gpsOffset offset hmem, ?_⟩
  simpa using (Option.filter_eq_some_iff.mp hmem).2

/-- Trees are read alike from both files. -/
theorem readTree_alike (hp : p.Valid) (h : p.Twins c₁ c₂) (index levels : Nat)
    (kind : DirectoryKind) {offset : Nat} (hrefers : p.Refers offset) (h0 : offset ≠ 0)
    (hst : s.Alike t) :
    StepsAlike p.SameTree (Survey.readTree c₁ index levels kind offset s)
      (Survey.readTree c₂ index levels kind offset t) := by
  induction levels generalizing kind offset s t with
  | zero =>
    obtain ⟨found₁, found₂, u, v, he, he', ⟨hblank, hfollows⟩, huv⟩ :=
      enter_alike hp h hrefers h0 kind index hst
    rw [Survey.readTree, Survey.readTree, he, he']
    cases found₁ with
    | none =>
      obtain rfl : found₂ = none := by simpa using hblank.symm
      exact ⟨none, none, u, v, rfl, rfl, ⟨rfl, by simp⟩, huv⟩
    | some found =>
      obtain ⟨found', rfl, hsame⟩ : ∃ found', found₂ = some found' ∧ found'.blank = found.blank := by
        simpa using hblank.symm
      have hchildren : found'.hasChildren = found.hasChildren := by
        rw [← Directory.hasChildren_blank, hsame, Directory.hasChildren_blank]
      refine ⟨_, _, _, _, rfl, rfl, ⟨?_, ?_⟩, ?_⟩
      · simp [hsame]
      · intro tree hmem
        obtain rfl := Option.some.inj hmem
        exact hfollows found rfl
      · rw [hchildren]
        split
        · exact huv.report _
        · exact huv
  | succ levels ih =>
    obtain ⟨found₁, found₂, u, v, he, he', ⟨hblank, hfollows⟩, huv⟩ :=
      enter_alike hp h hrefers h0 kind index hst
    rw [Survey.readTree, Survey.readTree, he, he']
    cases found₁ with
    | none =>
      obtain rfl : found₂ = none := by simpa using hblank.symm
      exact ⟨none, none, u, v, rfl, rfl, ⟨rfl, by simp⟩, huv⟩
    | some found =>
      obtain ⟨found', rfl, hsame⟩ : ∃ found', found₂ = some found' ∧ found'.blank = found.blank := by
        simpa using hblank.symm
      have hfollow := hfollows found rfl
      have hsubs : found'.subOffsets = found.subOffsets := by
        rw [← Directory.subOffsets_blank, hsame, Directory.subOffsets_blank]
      have hgps : found'.gpsOffset? = found.gpsOffset? := by
        rw [← Directory.gpsOffset?_blank, hsame, Directory.gpsOffset?_blank]
      have hreadSubs : ∀ offset ∈ found.subOffsets, ∀ s t : Survey, s.Alike t →
          StepsAlike p.SameTree (Survey.readTree c₁ index levels .sub offset s)
            (Survey.readTree c₂ index levels .sub offset t) := by
        intro offset hmem s t hst
        obtain ⟨hrefers, h0⟩ := refers_subOffsets hfollow offset hmem
        exact ih .sub hrefers h0 hst
      have hreadGps : ∀ offset ∈ found.gpsOffset?.toList, ∀ s t : Survey, s.Alike t →
          StepsAlike p.SameTree (Survey.readTree c₁ index levels .gps offset s)
            (Survey.readTree c₂ index levels .gps offset t) := by
        intro offset hmem s t hst
        obtain ⟨hrefers, h0⟩ := refers_gpsOffset hfollow offset hmem
        exact ih .gps hrefers h0 hst
      obtain ⟨subs₁, subs₂, u', v', hs, hs', hsubtrees, huv'⟩ := readEach_alike hreadSubs rfl huv
      obtain ⟨gps₁, gps₂, u'', v'', hg, hg', hgpstrees, huv''⟩ := readEach_alike hreadGps rfl huv'
      dsimp only
      rw [hs, hsubs, hs']
      dsimp only
      rw [hg, hgps, hg']
      refine ⟨_, _, _, _, rfl, rfl, ⟨?_, ?_⟩, huv''⟩
      · have hsubs := congrArg Array.toList hsubtrees
        have hgps := congrArg Array.toList hgpstrees
        rw [Array.toList_map, Array.toList_map] at hsubs hgps
        simp [hsame, hsubs, hgps]
      · intro tree hmem
        obtain rfl := Option.some.inj hmem
        exact hfollow

/-- Chains are followed alike in both files. -/
theorem walk_alike (hp : p.Valid) (h : p.Twins c₁ c₂) {offset : Nat} (hrefers : p.Refers offset)
    (hst : s.Alike t) :
    StepsAlike (fun _ _ => True) (s.walk c₁ offset) (t.walk c₂ offset) := by
  induction offset, s using Survey.walk.induct c₁ generalizing t with
  | case1 s =>
    rw [Survey.walk_zero, Survey.walk_zero]
    exact ⟨(), (), s, t, rfl, rfl, trivial, hst⟩
  | case2 offset s h0 cause u hr =>
    obtain ⟨_, _, _, _, hr', _⟩ := readTree_alike hp h s.directories.size Survey.maxDepth .main
      hrefers h0 hst
    cases hr.symm.trans hr'
  | case3 offset s h0 u hr =>
    have hread := readTree_alike hp h s.directories.size Survey.maxDepth .main hrefers h0 hst
    obtain ⟨tree₁, tree₂, u', v, hr₁, hr₂, ⟨hblank, _⟩, huv⟩ := hread
    obtain ⟨rfl, rfl⟩ := EStateM.Result.ok.inj (hr.symm.trans hr₁)
    obtain rfl : tree₂ = none := by simpa using hblank.symm
    rw [hst.size_directories] at hr₂
    rw [Survey.walk_halt h0 hr, Survey.walk_halt h0 hr₂]
    exact ⟨(), (), u, v, rfl, rfl, trivial, huv⟩
  | case4 offset s h0 tree u hr _ ih =>
    have hread := readTree_alike hp h s.directories.size Survey.maxDepth .main hrefers h0 hst
    obtain ⟨tree₁, tree₂, u', v, hr₁, hr₂, ⟨hblank, hfollows⟩, huv⟩ := hread
    obtain ⟨rfl, rfl⟩ := EStateM.Result.ok.inj (hr.symm.trans hr₁)
    obtain ⟨tree', rfl, hsame⟩ : ∃ tree', tree₂ = some tree' ∧ tree'.blank = tree.blank := by
      simpa using hblank.symm
    have hnext : tree'.directory.nextOffset = tree.directory.nextOffset := by
      have hdirectory := congrArg (·.directory.nextOffset) hsame
      simpa using hdirectory
    rw [hst.size_directories] at hr₂
    rw [Survey.walk_next h0 hr, Survey.walk_next h0 hr₂, hnext]
    exact ih (hfollows tree rfl).nextOffset (huv.addMain hsame.symm)

theorem isBig_version (p : Plan) (order : ByteOrder) :
    Header.isBig ⟨order, p.version⟩ = p.big := by
  cases hbig : p.big <;> simp [Header.isBig, version, hbig, Header.bigVersion, Header.classicVersion]

/-- The bytes of the header stand at the start of the file, in two parts. -/
theorem standsAt_header (hp : p.Valid) (order : ByteOrder) :
    StandsAt (signature order ++ order.encode 2 p.version) (p.bytes order) 0 ∧
      StandsAt (p.layoutBytes order ++ order.encode (Segment.offsetWidth p.big) p.firstOffset)
        (p.bytes order) Header.signatureSize := by
  have hregion : ⟨0, p.headerBytes order⟩ ∈ p.regions order := List.mem_cons_self
  have hstands := standsAt_bytes hp hregion
  have hlength : (signature order ++ order.encode 2 p.version).length = Header.signatureSize := by
    cases order <;> rfl
  rw [headerBytes, StandsAt.append_iff, hlength, Nat.zero_add] at hstands
  exact hstands

/-- The planned byte order and version are read. -/
theorem header_read (hp : p.Valid) {order : ByteOrder} {source : Source}
    (h : source.Holds (p.bytes order)) : Header.read source = .ok ⟨order, p.version⟩ := by
  have hsize : (signature order ++ order.encode 2 p.version).length = Header.signatureSize := by
    cases order <;> rfl
  obtain ⟨_, hread⟩ := h.read_of_standsAt (standsAt_header hp order).1 hsize
  have hversion : p.version < Nat.pow 256 2 := by
    cases hbig : p.big <;> simp [version, hbig, Header.bigVersion, Header.classicVersion]
  have hdecode := ByteOrder.decode_encode order 2 p.version hversion
  have hknown : p.version = Header.classicVersion ∨ p.version = Header.bigVersion := by
    cases hbig : p.big <;> simp [version, hbig]
  have horder : Header.orderOf? (signature order) = some order := by cases order <;> rfl
  have hlength : (signature order).length = 2 := by cases order <;> rfl
  simp only [Header.read, hread, Header.ofBytes, List.take_left' hlength, List.drop_left' hlength,
    horder, hdecode, if_pos hknown]

/-- The planned offset of the first directory is read, if it is an offset of the file. -/
theorem header_firstOffset (hp : p.Valid) {order : ByteOrder} {source : Source}
    (h : source.Holds (p.bytes order)) :
    Header.firstOffset ⟨order, p.version⟩ source =
      if isPosition p.firstOffset p.background.length then .ok p.firstOffset
      else .error (.defect (.invalidFileOffset p.firstOffset p.background.length)) := by
  have hbig := isBig_version p order
  have hlength : source.length = p.background.length := h.length_eq.trans (length_bytes hp order)
  have hsize : (p.layoutBytes order ++
      order.encode (Segment.offsetWidth p.big) p.firstOffset).length =
        Header.size ⟨order, p.version⟩ - Header.signatureSize := by
    rw [List.length_append, ByteOrder.length_encode, Header.size, hbig, layoutBytes]
    cases p.big <;> simp [Segment.offsetWidth, Header.signatureSize]
  obtain ⟨_, hread⟩ := h.read_of_standsAt (standsAt_header hp order).2 hsize
  let rest : Segment := ⟨Header.signatureSize, ⟨(p.layoutBytes order ++
    order.encode (Segment.offsetWidth p.big) p.firstOffset).toArray⟩, order, 0⟩
  have hoffset : ∀ cursor : Segment, cursor.order = order →
      cursor.rest = order.encode (Segment.offsetWidth p.big) p.firstOffset →
      (cursor.offsetValue p.big).1 = p.firstOffset := by
    intro cursor horder hrest
    exact offsetValue_of_before (s := ⟨cursor, .default, #[], #[]⟩) ⟨horder, hrest⟩
      hp.firstOffset_lt
  have htake : Header.takeOffset ⟨order, p.version⟩ rest source.length =
      if isPosition p.firstOffset p.background.length then .ok p.firstOffset
      else .error (.invalidFileOffset p.firstOffset p.background.length) := by
    rw [Header.takeOffset, Header.takeLayout, hbig]
    cases hlayout : p.big with
    | false =>
      have hrest : rest.rest = order.encode (Segment.offsetWidth p.big) p.firstOffset := by
        change p.layoutBytes order ++ _ = _
        rw [layoutBytes, hlayout]
        rfl
      have hvalue := hoffset rest rfl hrest
      rw [hlayout] at hvalue
      simp only [Bool.false_eq_true, reduceIte, hvalue, hlength]
    | true =>
      have hrest : rest.rest = rest.order.encode 2 Header.bigOffsetSize ++ (rest.order.encode 2 0 ++
          order.encode (Segment.offsetWidth p.big) p.firstOffset) := by
        change p.layoutBytes order ++ _ = _
        rw [layoutBytes, hlayout, if_pos rfl, List.append_assoc]
      obtain ⟨hwidth, hrest⟩ := Segment.uint_of_encode hrest (by decide)
      rw [← rest.order_uint 2] at hrest
      obtain ⟨hzero, hrest⟩ := Segment.uint_of_encode hrest (by decide)
      have hvalue := hoffset _ (((rest.uint 2).2.order_uint 2).trans (rest.order_uint 2)) hrest
      rw [hlayout] at hvalue
      simp only [reduceIte, hwidth, hzero, ne_eq, not_true_eq_false, hvalue, hlength]
  simp only [Header.firstOffset, hread]
  rw [show Header.takeOffset _ _ _ = _ from htake]
  cases isPosition p.firstOffset p.background.length <;> rfl

end Plan

namespace Description

structure Alike (d e : Description) : Prop where
  survey : d.survey.Alike e.survey
  isDng : d.isDng = e.isDng
  isCr2 : d.isCr2 = e.isCr2

variable {d e : Description}

theorem Alike.report (h : d.Alike e) (finding : Finding) :
    (d.report finding).Alike (e.report finding) :=
  ⟨h.survey.report finding, h.isDng, h.isCr2⟩

theorem blank_mainDirectories (d : Description) :
    d.mainDirectories.map Directory.blank =
      (d.survey.directories.map DirectoryTree.blank).toList.map (·.directory) := by
  rw [mainDirectories, Array.toList_map, List.map_map, List.map_map]
  congr 1
  funext tree
  exact tree.directory_blank.symm

theorem Alike.mainDirectories (h : d.Alike e) :
    d.mainDirectories.map Directory.blank = e.mainDirectories.map Directory.blank := by
  rw [blank_mainDirectories, blank_mainDirectories, h.survey.directories]

/-- The flavour is told from tags. -/
theorem Alike.setFlavour (h : d.Alike e) : d.setFlavour.Alike e.setFlavour := by
  have hmain := h.mainDirectories
  have hhead : ∀ (chain : List Directory) (tag : Nat), chain.head?.any (·.contains tag) =
      (chain.map Directory.blank).head?.any (·.contains tag) := by
    intro chain tag
    cases chain <;> simp
  have hlast : ∀ (chain : List Directory) (tag : Nat), chain.getLast?.any (·.contains tag) =
      (chain.map Directory.blank).getLast?.any (·.contains tag) := by
    intro chain tag
    rw [List.getLast?_map]
    cases chain.getLast? <;> simp
  have hlength := congrArg List.length hmain
  rw [List.length_map, List.length_map] at hlength
  refine ⟨h.survey, ?_, ?_⟩
  · simp only [Description.setFlavour]
    rw [hhead d.mainDirectories, hhead e.mainDirectories, hmain]
  · simp only [Description.setFlavour]
    rw [hlast d.mainDirectories, hlast e.mainDirectories, hmain, hlength]

/-- The profile is told from tags and decoded values. -/
theorem Alike.checkBaseline (h : d.Alike e) : d.checkBaseline.Alike e.checkBaseline := by
  have hreports : ∀ (findings : List Finding) (d e : Description), d.Alike e →
      (findings.foldl Description.report d).Alike (findings.foldl Description.report e) := by
    intro findings
    induction findings with
    | nil => exact fun d e h => h
    | cons finding findings ih => exact fun d e h => ih _ _ (h.report finding)
  have hhead := congrArg List.head? h.mainDirectories
  rw [List.head?_map, List.head?_map] at hhead
  unfold Description.checkBaseline
  cases hd : d.mainDirectories.head? with
  | none =>
    obtain he : e.mainDirectories.head? = none := by simpa [hd] using hhead.symm
    rw [he]
    exact h
  | some first =>
    obtain ⟨first', he, hsame⟩ : ∃ first', e.mainDirectories.head? = some first' ∧
        first'.blank = first.blank := by simpa [hd] using hhead.symm
    have hcheck : Baseline.check first' = Baseline.check first := by
      rw [← Baseline.check_blank, hsame, Baseline.check_blank]
    rw [he]
    dsimp only
    rw [hcheck]
    exact hreports _ _ _ h

/-- What follows the header is checked alike. -/
theorem Alike.check (h : d.Alike e) {p : Plan} (hp : p.Valid) (settings : Settings)
    {order₁ order₂ : ByteOrder} {source₁ source₂ : Source}
    (h₁ : source₁.Holds (p.bytes order₁)) (h₂ : source₂.Holds (p.bytes order₂)) :
    (d.check settings ⟨order₁, p.version⟩ source₁).Alike
      (e.check settings ⟨order₂, p.version⟩ source₂) := by
  have htwins : p.Twins ⟨source₁, settings, Header.encoding ⟨order₁, p.version⟩⟩
      ⟨source₂, settings, Header.encoding ⟨order₂, p.version⟩⟩ :=
    ⟨⟨p.isBig_version order₁, h₁⟩, ⟨p.isBig_version order₂, h₂⟩, rfl⟩
  rw [Description.check, Description.check, Plan.header_firstOffset hp h₁,
    Plan.header_firstOffset hp h₂]
  by_cases hposition : isPosition p.firstOffset p.background.length = true
  · obtain ⟨_, _, s, t, hs, ht, _, hst⟩ := Plan.walk_alike hp htwins hp.first h.survey
    have hwalked : ({ d with survey := s } : Description).setFlavour.Alike
        ({ e with survey := t } : Description).setFlavour :=
      Alike.setFlavour ⟨hst, h.isDng, h.isCr2⟩
    simp only [if_pos hposition, walk, hs, ht]
    split
    · exact hwalked.checkBaseline
    · exact hwalked
  · simp only [if_neg hposition]
    exact h.report _

end Description

namespace Decoder

/-- The header of a file, once it is read, decides what is looked at. -/
theorem process_of_header (d : Decoder) {source : Source} {header : Header}
    (hread : Header.read source = .ok header) :
    (d.process source).description =
      if d.settings.isIdentify then ⟨some header, .start .default, false, false⟩
      else Description.check ⟨some header, .start .default, false, false⟩ d.settings header
        source := by
  have hidentify : (d.identify source).description =
      ⟨some header, .start .default, false, false⟩ := by
    simp [identify, reset, new, Description.readHeader, Description.empty, hread]
  have hsettings : (d.identify source).settings = d.settings := rfl
  simp only [process, hidentify, hsettings]
  cases d.settings.isIdentify with
  | true => exact hidentify
  | false => rfl

/-- The two files that a plan makes are described alike. -/
theorem process_alike {p : Plan} (hp : p.Valid) {order₁ order₂ : ByteOrder}
    {source₁ source₂ : Source} (h₁ : source₁.Holds (p.bytes order₁))
    (h₂ : source₂.Holds (p.bytes order₂)) (d : Decoder) :
    (d.process source₁).description.Alike (d.process source₂).description := by
  have hempty : ∀ order₁ order₂ : ByteOrder, Description.Alike
      ⟨some ⟨order₁, p.version⟩, .start .default, false, false⟩
      ⟨some ⟨order₂, p.version⟩, .start .default, false, false⟩ :=
    fun _ _ => ⟨⟨rfl, rfl, rfl, rfl⟩, rfl, rfl⟩
  rw [process_of_header d (Plan.header_read hp h₁), process_of_header d (Plan.header_read hp h₂)]
  split
  · exact hempty order₁ order₂
  · exact (hempty order₁ order₂).check hp d.settings h₁ h₂

/-- The order in which bytes are read is the planned one. -/
theorem process_header {p : Plan} (hp : p.Valid) {order : ByteOrder} {source : Source}
    (h : source.Holds (p.bytes order)) (d : Decoder) :
    (d.process source).description.header = some ⟨order, p.version⟩ := by
  rw [process_of_header d (Plan.header_read hp h)]
  split
  · rfl
  · exact Description.header_check ..

/-- The two files that a plan makes, one with each byte order, are told apart by their byte order
alone: the same events are recorded in the same order, the same flavour is told, and the trees of
directories are the same once the stored bytes of their numbers are blanked out. -/
theorem process_order_transparent {p : Plan} (hp : p.Valid) {little big : Source}
    (hlittle : little.Holds (p.bytes .littleEndian)) (hbig : big.Holds (p.bytes .bigEndian))
    (d : Decoder) :
    (d.process little).verdict.log = (d.process big).verdict.log ∧
      (d.process little).description.survey.directories.map DirectoryTree.blank =
        (d.process big).description.survey.directories.map DirectoryTree.blank ∧
      (d.process little).description.isDng = (d.process big).description.isDng ∧
      (d.process little).description.isCr2 = (d.process big).description.isCr2 ∧
      (d.process little).description.header = some ⟨.littleEndian, p.version⟩ ∧
      (d.process big).description.header = some ⟨.bigEndian, p.version⟩ := by
  have halike := process_alike hp hlittle hbig d
  refine ⟨?_, halike.survey.directories, halike.isDng, halike.isCr2, process_header hp hlittle d,
    process_header hp hbig d⟩
  simp only [verdict, Description.findings, halike.survey.findings]

def resolutionPlan : Plan where
  big := false
  firstOffset := 8
  directories :=
    [⟨8, [⟨Tag.imageWidth, .short, .inline [[640]] [0, 0]⟩,
        ⟨282, .rational, .region [[300, 1]] 50⟩,
        ⟨Tag.subDirectories, .long, .inline [[58]] []⟩], 0⟩,
      ⟨58, [], 0⟩]
  background := List.replicate 64 0

theorem valid_resolutionPlan : resolutionPlan.Valid where
  directories := by
    have hentries : ∀ x ∈ resolutionPlan.directories.flatMap (·.entries),
        x.Valid resolutionPlan.big resolutionPlan.background.length := by
      intro x hx
      simp only [resolutionPlan, List.flatMap_cons, List.flatMap_nil, List.cons_append,
        List.nil_append, List.mem_cons, List.not_mem_nil, or_false] at hx
      rcases hx with rfl | rfl | rfl
      all_goals exact ⟨by decide, by decide, by decide, by decide⟩
    intro d hd
    refine ⟨fun x hx => hentries x (List.mem_flatMap.mpr ⟨d, hd, hx⟩), ?_, ?_⟩
    all_goals
      revert d
      decide
  firstOffset_lt := by decide
  inside := by
    intro order
    cases order <;> decide
  apart := by
    intro order
    cases order <;> decide
  first := by decide
  references := by decide
  embedded := by
    intro d hd offset length hstart
    simp only [resolutionPlan, List.mem_cons, List.not_mem_nil, or_false] at hd
    rcases hd with rfl | rfl <;> cases hstart

theorem process_order_transparent_resolutionPlan :
    resolutionPlan.Valid ∧
      (Source.ofBytes "little.tif" ⟨(resolutionPlan.bytes .littleEndian).toArray⟩).Holds
        (resolutionPlan.bytes .littleEndian) ∧
      (Source.ofBytes "big.tif" ⟨(resolutionPlan.bytes .bigEndian).toArray⟩).Holds
        (resolutionPlan.bytes .bigEndian) ∧
      let little := (new ⟨.check, false⟩).process
        (.ofBytes "little.tif" ⟨(resolutionPlan.bytes .littleEndian).toArray⟩)
      let big := (new ⟨.check, false⟩).process
        (.ofBytes "big.tif" ⟨(resolutionPlan.bytes .bigEndian).toArray⟩)
      little.verdict.log = big.verdict.log ∧
        little.description.survey.directories.map DirectoryTree.blank =
          big.description.survey.directories.map DirectoryTree.blank ∧
        little.description.isDng = big.description.isDng ∧
        little.description.isCr2 = big.description.isCr2 ∧
        little.description.header = some ⟨.littleEndian, Header.classicVersion⟩ ∧
        big.description.header = some ⟨.bigEndian, Header.classicVersion⟩ := by
  have hlittle : (Source.ofBytes "little.tif"
      ⟨(resolutionPlan.bytes .littleEndian).toArray⟩).Holds (resolutionPlan.bytes .littleEndian) :=
    Source.Holds.ofBytes _ (by decide)
  have hbig : (Source.ofBytes "big.tif" ⟨(resolutionPlan.bytes .bigEndian).toArray⟩).Holds
      (resolutionPlan.bytes .bigEndian) :=
    Source.Holds.ofBytes _ (by decide)
  exact ⟨valid_resolutionPlan, hlittle, hbig,
    process_order_transparent valid_resolutionPlan hlittle hbig (new ⟨.check, false⟩)⟩

end Decoder
end ImageAudit.Tiff
