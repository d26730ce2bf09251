import ImageAudit.Proofs.Tiff.PlanReading

/-! Reading the directories of a plan. From the two files that a plan makes a directory is read with
the same findings, and whatever it refers to is a directory of the plan or none. -/
namespace ImageAudit.Tiff

namespace Intake

structure Alike (s t : Intake) : Prop where
  budget : s.budget = t.budget
  findings : s.findings = t.findings
  fields : s.fields.toList.map Field.blank = t.fields.toList.map Field.blank

structure Before (s : Intake) (order : ByteOrder) (bytes : List UInt8) : Prop where
  order : s.cursor.order = order
  rest : s.cursor.rest = bytes

/-- The tag of the last field. -/
private theorem tag_back? (fields : Array Field) :
    fields.back?.map (·.tag) = ((fields.toList.map Field.blank).getLast?).map (·.tag) := by
  rw [List.getLast?_map, Option.map_map, ← Array.getLast?_toList]
  congr 1
  funext f
  exact f.tag_blank.symm

/-- An entry that yields a field is taken in as it. -/
theorem step_eq {c : Context} {s : Intake} {loaded : Loaded Field} {f : Field}
    (hloaded : (Entry.read c.encoding s.cursor).1.resolve c.encoding c.source s.budget = loaded)
    (hf : loaded.result = .ok f) :
    s.step c = (.ok (), { s with
      cursor := (Entry.read c.encoding s.cursor).2
      budget := loaded.budget
      findings := s.findings ++ loaded.findings }.accept f) := by
  simp only [step, Field.read, hloaded, hf]

theorem Alike.accept {s t : Intake} (h : s.Alike t) {f g : Field} (hblank : f.blank = g.blank) :
    (s.accept f).Alike (t.accept g) where
  budget := h.budget
  findings := by
    have htag : f.tag = g.tag := by rw [← f.tag_blank, hblank, g.tag_blank]
    have hcheck : FieldRules.check f = FieldRules.check g := by
      rw [← FieldRules.check_blank f, hblank, FieldRules.check_blank g]
    simp only [Intake.accept, h.findings, htag, hcheck, tag_back?, h.fields]
  fields := by simp [Intake.accept, h.fields, hblank]

end Intake

namespace PlannedDirectory

/-- The directory shows the planned one: it has an entry for each that was planned, and its offset
of the next directory. -/
structure Shows (d : PlannedDirectory) (found : Directory) : Prop where
  entries : List.Forall₂ PlannedEntry.Shows d.entries found.fields
  nextOffset : found.nextOffset = d.nextOffset

variable {d : PlannedDirectory} {found : Directory} {tag : Nat}

theorem Shows.find? (h : d.Shows found) {f : Field} (hf : found.find? tag = some f) :
    ∃ x, d.find? tag = some x ∧ x.Shows f := by
  have hentries := h.entries
  rw [Directory.find?] at hf
  rw [PlannedDirectory.find?]
  generalize d.entries = entries at hentries ⊢
  generalize found.fields = fields at hentries hf
  induction hentries with
  | nil => cases hf
  | @cons x g entries fields hx _ ih =>
    rw [List.find?_cons] at hf ⊢
    rw [← hx.1]
    cases htag : g.tag == tag with
    | true =>
      rw [htag] at hf
      obtain rfl := Option.some.inj hf
      exact ⟨x, rfl, hx⟩
    | false =>
      rw [htag] at hf
      exact ih hf

theorem Shows.word? (h : d.Shows found) {word : Nat} (hword : found.word? tag = some word) :
    d.word? tag = some word := by
  obtain ⟨f, hf, hfirst⟩ := Option.bind_eq_some_iff.mp hword
  obtain ⟨x, hx, _, hvalues⟩ := h.find? hf
  rw [PlannedDirectory.word?, hx, Option.bind_some]
  rw [Field.first?] at hfirst
  rcases hvalues with hnone | hsame
  · rw [hnone] at hfirst
    cases hfirst
  · rwa [hsame] at hfirst

theorem Shows.subOffsets (h : d.Shows found) : found.subOffsets ⊆ d.subOffsets := by
  intro offset hmem
  rw [Directory.subOffsets] at hmem
  cases hf : found.find? Tag.subDirectories with
  | none =>
    rw [hf] at hmem
    cases hmem
  | some f =>
    obtain ⟨x, hx, _, hvalues⟩ := h.find? hf
    rw [hf] at hmem
    have hwords := (List.mem_filter.mp hmem).1
    rw [Field.words] at hwords
    rw [PlannedDirectory.subOffsets, hx]
    rcases hvalues with hnone | hsame
    · rw [hnone] at hwords
      cases hwords
    · rwa [hsame] at hwords

end PlannedDirectory

namespace Plan

variable {p : Plan} {c c₁ c₂ : Context}

structure Serves (p : Plan) (c : Context) : Prop where
  big : c.encoding.big = p.big
  holds : c.source.Holds (p.bytes c.encoding.order)

structure Twins (p : Plan) (c₁ c₂ : Context) : Prop where
  left : p.Serves c₁
  right : p.Serves c₂
  settings : c₁.settings = c₂.settings

theorem length_bytes (h : p.Valid) (order : ByteOrder) :
    (p.bytes order).length = p.background.length :=
  length_overlay (h.inside order)

theorem Serves.length (hc : p.Serves c) (h : p.Valid) : c.source.length = p.background.length :=
  hc.holds.length_eq.trans (length_bytes h _)

theorem standsAt_bytes (h : p.Valid) {order : ByteOrder} {r : Region} (hr : r ∈ p.regions order) :
    StandsAt r.bytes (p.bytes order) r.offset :=
  standsAt_overlay (h.inside order) (h.apart order) hr

/-- A planned directory stands at its offset. -/
theorem standsAt_directory (h : p.Valid) {d : PlannedDirectory} (hd : d ∈ p.directories)
    (order : ByteOrder) : StandsAt (d.bytes order p.big) (p.bytes order) d.offset := by
  apply standsAt_bytes h (r := ⟨d.offset, d.bytes order p.big⟩)
  exact List.mem_cons_of_mem _ (List.mem_flatMap.mpr ⟨d, hd, List.mem_cons_self⟩)

/-- So do values in a region of their own. -/
theorem foundIn (h : p.Valid) (hc : p.Serves c) {d : PlannedDirectory} (hd : d ∈ p.directories)
    {x : PlannedEntry} (hx : x ∈ d.entries) {values : List (List Nat)} {offset : Nat}
    (hplace : x.place = .region values offset) : x.FoundIn c.source c.encoding.order offset := by
  apply hc.holds.read_of_standsAt _ rfl
  apply standsAt_bytes h (r := ⟨offset, x.raw c.encoding.order⟩)
  refine List.mem_cons_of_mem _ (List.mem_flatMap.mpr ⟨d, hd, List.mem_cons_of_mem _ ?_⟩)
  refine List.mem_flatMap.mpr ⟨x, hx, ?_⟩
  rw [PlannedEntry.regions, hplace]
  exact List.mem_singleton_self _

/-- Bytes that no region meets are the same in both files. -/
theorem bytesAt_eq (h : p.Valid) {start count : Nat}
    (havoids : ∀ order, ∀ r ∈ p.regions order, r.Avoids start (start + count))
    (order : ByteOrder) :
    bytesAt (p.bytes order) start count = bytesAt p.background start count :=
  bytesAt_overlay (h.inside order) (havoids order)

/-- An entry is read alike from both files. -/
theorem step_alike (hp : p.Valid) (h : p.Twins c₁ c₂) {d : PlannedDirectory}
    (hd : d ∈ p.directories) {x : PlannedEntry} (hx : x ∈ d.entries) {s t : Intake}
    (halike : s.Alike t) {more₁ more₂ : List UInt8}
    (hs : s.Before c₁.encoding.order (x.bytes c₁.encoding.order p.big ++ more₁))
    (ht : t.Before c₂.encoding.order (x.bytes c₂.encoding.order p.big ++ more₂)) :
    ∃ f s' t', s.step c₁ = (.ok (), s') ∧ t.step c₂ = (.ok (), t') ∧ s'.Alike t' ∧
      s'.Before c₁.encoding.order more₁ ∧ t'.Before c₂.encoding.order more₂ ∧
      s'.fields.toList = s.fields.toList ++ [f] ∧ x.Shows f := by
  have hlength₁ := h.left.length hp
  have hvalid : x.Valid p.big c₁.source.length :=
    hlength₁ ▸ (hp.directories d hd).entries x hx
  have he₁ : c₁.encoding = ⟨c₁.encoding.order, p.big⟩ := by rw [← h.left.big]
  have he₂ : c₂.encoding = ⟨c₂.encoding.order, p.big⟩ := by rw [← h.right.big]
  obtain ⟨hread₁, horder₁, hrest₁⟩ := PlannedEntry.read_stored hvalid hs.order hs.rest
  obtain ⟨hread₂, horder₂, hrest₂⟩ := PlannedEntry.read_stored hvalid ht.order ht.rest
  have hresolved := PlannedEntry.resolved_stored hvalid (hlength₁.trans (h.right.length hp).symm)
    c₁.encoding.order c₂.encoding.order (fun values offset hplace =>
      ⟨foundIn hp h.left hd hx hplace, foundIn hp h.right hd hx hplace⟩) s.budget
  rw [← he₁] at hread₁ horder₁ hrest₁ hresolved
  rw [← he₂] at hread₂ horder₂ hrest₂ hresolved
  rw [← hread₁, ← hread₂] at hresolved
  generalize hloaded₁ : (Entry.read c₁.encoding s.cursor).1.resolve c₁.encoding c₁.source s.budget =
    loaded₁ at hresolved
  rw [halike.budget] at hresolved
  generalize hloaded₂ : (Entry.read c₂.encoding t.cursor).1.resolve c₂.encoding c₂.source t.budget =
    loaded₂ at hresolved
  obtain ⟨f, g, hf, hg, hblank, hshows, hfindings, hbudget⟩ := hresolved
  refine ⟨f, _, _, Intake.step_eq hloaded₁ hf, Intake.step_eq hloaded₂ hg, ?_,
    ⟨horder₁, hrest₁⟩, ⟨horder₂, hrest₂⟩, ?_, hshows⟩
  · apply Intake.Alike.accept _ hblank
    refine ⟨hbudget, ?_, halike.fields⟩
    rw [halike.findings, hfindings]
  · simp [Intake.accept]

/-- Entries are read alike from both files. -/
theorem run_alike (hp : p.Valid) (h : p.Twins c₁ c₂) {d : PlannedDirectory}
    (hd : d ∈ p.directories) {entries : List PlannedEntry} (hsub : entries ⊆ d.entries)
    {s t : Intake} (halike : s.Alike t) {more₁ more₂ : List UInt8}
    (hs : s.Before c₁.encoding.order
      (entries.flatMap (·.bytes c₁.encoding.order p.big) ++ more₁))
    (ht : t.Before c₂.encoding.order
      (entries.flatMap (·.bytes c₂.encoding.order p.big) ++ more₂)) :
    ∃ fs s' t', s.run c₁ entries.length = (.ok (), s') ∧ t.run c₂ entries.length = (.ok (), t') ∧
      s'.Alike t' ∧ s'.Before c₁.encoding.order more₁ ∧ t'.Before c₂.encoding.order more₂ ∧
      s'.fields.toList = s.fields.toList ++ fs ∧ List.Forall₂ PlannedEntry.Shows entries fs := by
  induction entries generalizing s t with
  | nil => exact ⟨[], s, t, rfl, rfl, halike, hs, ht, (List.append_nil _).symm, .nil⟩
  | cons x entries ih =>
    rw [List.cons_subset] at hsub
    rw [List.flatMap_cons, List.append_assoc] at hs ht
    obtain ⟨f, s', t', hstep₁, hstep₂, halike', hs', ht', hfield, hshows⟩ :=
      step_alike hp h hd hsub.1 halike hs ht
    obtain ⟨fs, u, v, hrun₁, hrun₂, halike'', hu, hv, hfields, hall⟩ :=
      ih hsub.2 halike' hs' ht'
    refine ⟨f :: fs, u, v, ?_, ?_, halike'', hu, hv, ?_, .cons hshows hall⟩
    · rw [List.length_cons, Intake.run, hstep₁]
      exact hrun₁
    · rw [List.length_cons, Intake.run, hstep₂]
      exact hrun₂
    · rw [hfields, hfield, List.append_assoc, List.singleton_append]

/-- Bytes that stand in the file are read as a part of a directory. -/
theorem readPart_of_standsAt (hc : p.Serves c) (offset : Nat) {start count : Nat}
    {bytes : List UInt8}
    (hstands : StandsAt bytes (p.bytes c.encoding.order) start) (hcount : bytes.length = count) :
    Directory.readPart c.source offset start count = .ok ⟨bytes.toArray⟩ := by
  obtain ⟨hsection, hread⟩ := hc.holds.read_of_standsAt hstands hcount
  simp only [Directory.readPart, hsection, hread, Bool.not_true, Bool.false_eq_true, reduceIte]

theorem length_entry (h : p.Valid) {d : PlannedDirectory} (hd : d ∈ p.directories)
    {x : PlannedEntry} (hx : x ∈ d.entries) (order : ByteOrder) :
    (x.bytes order p.big).length = Entry.size p.big := by
  have harea := PlannedEntry.length_valueArea ((h.directories d hd).entries x hx) order
  simp only [PlannedEntry.bytes, List.length_append, ByteOrder.length_encode, harea,
    Entry.size_eq]
  omega

/-- The number of entries and the entries of a planned directory are read where it stands. -/
theorem readBytes_eq (h : p.Valid) (hc : p.Serves c) {d : PlannedDirectory}
    (hd : d ∈ p.directories) :
    (d.entries = [] → Directory.readBytes c.encoding c.source d.offset =
        .error (.defect (.tooFewTags d.offset 0 Directory.minTags))) ∧
      (d.entries ≠ [] → ∃ raw, Directory.readBytes c.encoding c.source d.offset = .ok (d.entries.length, raw) ∧
        (∀ budget, (Intake.start raw budget).Before c.encoding.order
          (d.entries.flatMap (·.bytes c.encoding.order p.big) ++
            c.encoding.order.encode (Segment.offsetWidth p.big) d.nextOffset))) := by
  have hstands := standsAt_directory h hd c.encoding.order
  rw [PlannedDirectory.bytes, StandsAt.append_iff, ByteOrder.length_encode] at hstands
  obtain ⟨hcount, hbody⟩ := hstands
  have hwidth := ByteOrder.length_encode c.encoding.order (Directory.countSize p.big)
    d.entries.length
  have hbodySize : (d.entries.flatMap (·.bytes c.encoding.order p.big) ++
      c.encoding.order.encode (Segment.offsetWidth p.big) d.nextOffset).length =
        Directory.bodySize p.big d.entries.length := by
    rw [List.length_append, ByteOrder.length_encode, Directory.bodySize,
      length_flatMap_of_forall fun x hx => length_entry h hd hx _, Nat.mul_comm]
  have hreadCount := readPart_of_standsAt hc d.offset hcount hwidth
  have hreadBody := readPart_of_standsAt hc d.offset hbody hbodySize
  let first : Segment := ⟨d.offset,
    ⟨(c.encoding.order.encode (Directory.countSize p.big) d.entries.length).toArray⟩,
    c.encoding.order, 0⟩
  have hfirst : first.rest = first.order.encode (Directory.countSize p.big) d.entries.length ++ [] :=
    (List.append_nil _).symm
  obtain ⟨hnumber, hrest⟩ := Segment.uint_of_encode hfirst (h.directories d hd).count_lt
  have hread : Directory.readBytes c.encoding c.source d.offset =
      if d.entries.length < Directory.minTags then
        .error (.defect (.tooFewTags d.offset d.entries.length Directory.minTags))
      else .ok (d.entries.length, (first.uint (Directory.countSize p.big)).2.append
        ⟨(d.entries.flatMap (·.bytes c.encoding.order p.big) ++
          c.encoding.order.encode (Segment.offsetWidth p.big) d.nextOffset).toArray⟩) := by
    simp only [Directory.readBytes, hc.big, hreadCount]
    rw [show (Segment.uint ⟨d.offset, _, _, 0⟩ (Directory.countSize p.big)).1 =
      d.entries.length from hnumber, hreadBody]
  rw [hread]
  constructor
  · intro hnone
    rw [hnone]
    rfl
  · intro hsome
    have hpos := List.length_pos_iff.mpr hsome
    refine ⟨_, if_neg (Nat.not_lt.mpr hpos), fun budget => ⟨rfl, ?_⟩⟩
    change ((first.uint (Directory.countSize p.big)).2.append _).rest = _
    rw [Segment.rest_append _ (Segment.valid_uint first _), hrest]
    rfl

/-- What is embedded in a directory is judged alike. -/
theorem rulesFindings_eq (hp : p.Valid) (h : p.Twins c₁ c₂) {d : PlannedDirectory}
    (hd : d ∈ p.directories) {found₁ found₂ : Directory} (hshows : d.Shows found₁)
    (hblank : found₁.blank = found₂.blank) (kind : DirectoryKind) (index : Nat) :
    Directory.rulesFindings c₁ kind index found₁ =
      Directory.rulesFindings c₂ kind index found₂ := by
  have hlength₁ := h.left.length hp
  have hlength₂ := h.right.length hp
  have hrules : DirectoryRules.check found₁ kind index c₁.source.length =
      DirectoryRules.check found₂ kind index c₂.source.length := by
    rw [← DirectoryRules.check_blank found₁, hblank, DirectoryRules.check_blank, hlength₁, hlength₂]
  have hpackets : EmbeddedData.packetFindings found₁ = EmbeddedData.packetFindings found₂ := by
    rw [← EmbeddedData.packetFindings_blank, hblank, EmbeddedData.packetFindings_blank]
  have hwords : ∀ tag, found₁.word? tag = found₂.word? tag := by
    intro tag
    rw [← Directory.word?_blank, hblank, Directory.word?_blank]
  have hstreams : EmbeddedData.streamFindings c₁.settings c₁.source found₁ =
      EmbeddedData.streamFindings c₂.settings c₂.source found₂ := by
    simp only [EmbeddedData.streamFindings, ← hwords, Source.hasSection, hlength₁, hlength₂,
      h.settings]
    cases hoffset : found₁.word? Tag.embeddedOffset with
    | none => rfl
    | some offset =>
      cases hsize : found₁.word? Tag.embeddedLength with
      | none => rfl
      | some length =>
        dsimp only
        split
        · next hsection =>
          have havoids := hp.embedded d hd offset length (hshows.word? hoffset)
            (hshows.word? hsize) hsection
          have hsection₁ : c₁.source.hasSection offset length = true := by
            rw [Source.hasSection, hlength₁]
            exact hsection
          have hsection₂ : c₂.source.hasSection offset length = true := by
            rw [Source.hasSection, hlength₂]
            exact hsection
          have hwindow₁ := h.left.holds.window hsection₁
          have hwindow₂ := h.right.holds.window hsection₂
          rw [bytesAt_eq hp havoids] at hwindow₁ hwindow₂
          rw [Jpeg.Decoder.process_congr (hwindow₁.agrees hwindow₂)]
        · rfl
  rw [Directory.rulesFindings, Directory.rulesFindings, hrules, EmbeddedData.check,
    EmbeddedData.check, hpackets, hstreams]

structure Follows (p : Plan) (found : Directory) : Prop where
  nextOffset : p.Refers found.nextOffset
  subOffsets : ∀ offset ∈ found.subOffsets, p.Refers offset
  gpsOffset : ∀ offset ∈ found.gpsOffset?, p.Refers offset

theorem follows_of_shows (hp : p.Valid) {d : PlannedDirectory} (hd : d ∈ p.directories)
    {found : Directory} (h : d.Shows found) : p.Follows found where
  nextOffset := by
    rw [h.nextOffset]
    exact hp.references d hd _ List.mem_cons_self
  subOffsets offset hmem :=
    hp.references d hd offset (List.mem_cons_of_mem _
      (List.mem_append_left _ (h.subOffsets hmem)))
  gpsOffset offset hmem := by
    have hword := (Option.filter_eq_some_iff.mp hmem).1
    exact hp.references d hd offset (List.mem_cons_of_mem _
      (List.mem_append_right _ (Option.mem_toList.mpr (h.word? hword))))

structure Reads (p : Plan) (r s : DirectoryReading) : Prop where
  findings : r.findings = s.findings
  budget : r.budget = s.budget
  result : r.result = .ok none ∧ s.result = .ok none ∨
    ∃ found₁ found₂, r.result = .ok (some found₁) ∧ s.result = .ok (some found₂) ∧
      found₁.blank = found₂.blank ∧ p.Follows found₁

/-- A defect is found alike. -/
private theorem reads_of_defect {finding : Finding} {kind : DirectoryKind} {index offset : Nat}
    {budget : Budget}
    (h₁ : Directory.readBytes c₁.encoding c₁.source offset = .error (.defect finding))
    (h₂ : Directory.readBytes c₂.encoding c₂.source offset = .error (.defect finding)) :
    p.Reads (Directory.read c₁ kind index offset budget)
      (Directory.read c₂ kind index offset budget) := by
  simp only [Directory.read, h₁, h₂]
  exact ⟨rfl, rfl, .inl ⟨rfl, rfl⟩⟩

/-- Behind the entries the offset of the next directory is read. -/
theorem offsetValue_of_before {s : Intake} {order : ByteOrder} {big : Bool} {offset : Nat}
    (h : s.Before order (order.encode (Segment.offsetWidth big) offset))
    (hoffset : offset < Nat.pow 256 (Segment.offsetWidth big)) :
    (s.cursor.offsetValue big).1 = offset := by
  obtain ⟨rfl, hrest⟩ := h
  rw [← List.append_nil (s.cursor.order.encode _ _)] at hrest
  exact (Segment.uint_of_encode hrest hoffset).1

/-- Where the plan may refer to, both files are read alike. -/
theorem reads_read (hp : p.Valid) (h : p.Twins c₁ c₂) {offset : Nat} (hrefers : p.Refers offset)
    (h0 : offset ≠ 0) (kind : DirectoryKind) (index : Nat) (budget : Budget) :
    p.Reads (Directory.read c₁ kind index offset budget)
      (Directory.read c₂ kind index offset budget) := by
  have hlength₁ := h.left.length hp
  have hlength₂ := h.right.length hp
  obtain hzero | ⟨d, hd, rfl⟩ | houtside := hrefers
  · exact absurd hzero h0
  · by_cases hnone : d.entries = []
    · exact reads_of_defect ((readBytes_eq hp h.left hd).1 hnone)
        ((readBytes_eq hp h.right hd).1 hnone)
    · obtain ⟨raw₁, hread₁, hbefore₁⟩ := (readBytes_eq hp h.left hd).2 hnone
      obtain ⟨raw₂, hread₂, hbefore₂⟩ := (readBytes_eq hp h.right hd).2 hnone
      obtain ⟨fs, s, t, hrun₁, hrun₂, halike, hs, ht, hfields, hall⟩ :=
        run_alike hp h hd (List.Subset.refl _)
          (⟨rfl, rfl, rfl⟩ : (Intake.start raw₁ budget).Alike (Intake.start raw₂ budget))
          (hbefore₁ budget) (hbefore₂ budget)
      have hnext := (hp.directories d hd).nextOffset_lt
      have hnext₁ := offsetValue_of_before hs hnext
      have hnext₂ := offsetValue_of_before ht hnext
      have hshows : d.Shows (s.directory c₁.encoding.big d.offset) := {
        entries := by
          change List.Forall₂ _ d.entries s.fields.toList
          rw [hfields]
          exact hall
        nextOffset := by rw [Intake.directory, h.left.big, hnext₁] }
      have hblank : (s.directory c₁.encoding.big d.offset).blank =
          (t.directory c₂.encoding.big d.offset).blank := by
        simp only [Directory.blank, Intake.directory, h.left.big, h.right.big, hnext₁, hnext₂,
          halike.fields]
      have hrules := rulesFindings_eq hp h hd hshows hblank kind index
      simp only [Directory.read, hread₁, hread₂, hrun₁, hrun₂]
      refine ⟨?_, halike.budget, .inr ⟨_, _, rfl, rfl, hblank, follows_of_shows hp hd hshows⟩⟩
      rw [hrules, halike.findings]
  · have hoff : ∀ c, p.Serves c → c.source.length = p.background.length →
        Directory.readBytes c.encoding c.source offset =
          .error (.defect (.invalidFileOffset offset p.background.length)) := by
      intro c hc hlength
      have hsection : c.source.hasSection offset (Directory.countSize c.encoding.big) = false := by
        rw [← Bool.not_eq_true, Source.hasSection_iff, hlength, hc.big]
        omega
      simp only [Directory.readBytes, Directory.readPart, hsection, hlength, Bool.not_false,
        reduceIte]
    exact reads_of_defect (hoff c₁ h.left hlength₁) (hoff c₂ h.right hlength₂)

end Plan
end ImageAudit.Tiff
