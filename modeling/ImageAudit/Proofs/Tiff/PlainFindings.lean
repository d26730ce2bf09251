import ImageAudit.Proofs.Text.Tidy
import ImageAudit.Proofs.Tiff.Placement

/-! What is found in the bytes of a TIFF file. It never is a read that failed, and its texts keep a
line of tab-separated fields in shape, but for those that it quotes from the file. -/
namespace ImageAudit.Tiff

namespace Finding

def cause? : Finding → Option ReadError
  | .cannotReadHeader cause | .readingError cause => some cause
  | _ => none

def names : Finding → List String
  | .invalidByteOrder signature => [signature]
  | .invalidFieldWindow _ _ size _ => [size]
  | .incorrectFieldType _ name found allowed => [name, found, allowed]
  | .valueTooSmall _ name _ _ | .valueTooLarge _ name _ _ | .tooFewValues _ name _ _
  | .tooManyValues _ name _ _ | .nonAsciiCharacters _ name _ | .notZeroTerminated _ name
  | .invalidDateTime _ name _ | .missingMandatory _ _ name => [name]
  | _ => []

structure Plain (f : Finding) : Prop where
  no_cause : f.cause? = none
  tidy : ∀ name ∈ f.names, Text.Tidy name

theorem plain_of_nameless {f : Finding} (hcause : f.cause? = none) (hnames : f.names = []) :
    f.Plain :=
  ⟨hcause, by simp [hnames]⟩

theorem plain_of_name {f : Finding} {name : String} (hcause : f.cause? = none)
    (hnames : f.names = [name]) (h : Text.Tidy name) : f.Plain :=
  ⟨hcause, by simpa [hnames] using h⟩

end Finding

def AllPlain (found : List Finding) : Prop := ∀ f ∈ found, f.Plain

namespace AllPlain

@[simp] theorem nil : AllPlain [] := List.forall_mem_nil _

@[simp] theorem append {first second : List Finding} :
    AllPlain (first ++ second) ↔ AllPlain first ∧ AllPlain second := List.forall_mem_append

@[simp] theorem singleton {f : Finding} : AllPlain [f] ↔ f.Plain := by simp [AllPlain]

theorem ite_nil {p : Prop} [Decidable p] {found : List Finding} (h : AllPlain found) :
    AllPlain (if p then [] else found) := by
  split
  · exact nil
  · exact h

theorem ite {p : Prop} [Decidable p] {found : List Finding} (h : AllPlain found) :
    AllPlain (if p then found else []) := by
  split
  · exact h
  · exact nil

/-- A finding without texts, reported under a condition. -/
theorem ite_nameless {p : Prop} [Decidable p] {f : Finding} (hcause : f.cause? = none)
    (hnames : f.names = []) : AllPlain (if p then [f] else []) :=
  ite (singleton.mpr (Finding.plain_of_nameless hcause hnames))

end AllPlain

namespace Schema

theorem tidy_rules : ∀ r ∈ rules, Text.Tidy r.name := by decide +kernel

theorem tidy_name_of_rule? {tag : Nat} {r : Rule} (h : rule? tag = some r) : Text.Tidy r.name :=
  tidy_rules r (List.mem_of_find?_eq_some h)

theorem tidy_tagName (tag : Nat) : Text.Tidy (tagName tag) := by
  rw [tagName]
  split
  · next h => exact tidy_name_of_rule? h
  · exact Text.tidy_append.mpr ⟨by decide, Text.tidy_nat tag⟩

end Schema

theorem FieldType.tidy_name (t : FieldType) : Text.Tidy t.name := by cases t <;> decide

theorem Rule.tidy_typeNames (r : Rule) : Text.Tidy r.typeNames :=
  (Text.tidy_intercalate (by decide)).mpr fun name hname => by
    obtain ⟨t, _, rfl⟩ := List.mem_map.mp hname
    exact t.tidy_name

namespace Header

variable {source : Source} {header : Header} {finding : Finding}

theorem tidy_showSignature (bytes : List UInt8) : Text.Tidy (showSignature bytes) :=
  Text.tidy_append.mpr ⟨by decide, Text.tidy_join fun text htext => by
    obtain ⟨b, _, rfl⟩ := List.mem_map.mp htext
    exact Text.tidy_hex 2 _⟩

theorem plain_of_ofBytes {bytes : List UInt8} (h : ofBytes bytes = .error finding) :
    finding.Plain := by
  unfold ofBytes at h
  split at h
  · obtain rfl := Except.error.inj h
    exact Finding.plain_of_name rfl rfl (tidy_showSignature _)
  · dsimp only at h
    split at h
    · cases h
    · obtain rfl := Except.error.inj h
      exact Finding.plain_of_nameless rfl rfl

theorem plain_of_takeLayout {rest : Segment} (h : header.takeLayout rest = .error finding) :
    finding.Plain := by
  rw [takeLayout] at h
  split at h
  · dsimp only at h
    split at h
    · obtain rfl := Except.error.inj h
      exact Finding.plain_of_nameless rfl rfl
    · split at h
      · obtain rfl := Except.error.inj h
        exact Finding.plain_of_nameless rfl rfl
      · cases h
  · cases h

theorem plain_of_takeOffset {rest : Segment} {fileLength : Nat}
    (h : header.takeOffset rest fileLength = .error finding) : finding.Plain := by
  rw [takeOffset] at h
  split at h
  · next hlayout =>
    obtain rfl := Except.error.inj h
    exact plain_of_takeLayout hlayout
  · dsimp only at h
    split at h
    · cases h
    · obtain rfl := Except.error.inj h
      exact Finding.plain_of_nameless rfl rfl

theorem plain_of_firstOffset (h : header.firstOffset source = .error (.defect finding)) :
    finding.Plain := by
  rw [firstOffset] at h
  split at h
  · cases h
  · split at h
    · next hoffset =>
      obtain rfl := Obstacle.defect.inj (Except.error.inj h)
      exact plain_of_takeOffset hoffset
    · cases h

end Header

namespace Entry

variable {entry : Entry} {e : Encoding} {t : FieldType} {source : Source} {budget : Budget}

theorem plain_decode (valueOffset : Option Nat) (raw : ByteArray) :
    AllPlain (entry.decode e t valueOffset raw).2 := by
  intro f hf
  obtain ⟨bytes, _, hbytes⟩ := List.mem_filterMap.mp hf
  rw [FieldType.ratioFinding?] at hbytes
  split at hbytes
  · split at hbytes
    · cases hbytes
    · obtain rfl := Option.some.inj hbytes
      exact Finding.plain_of_nameless rfl rfl
  · cases hbytes

theorem tidy_shownSize (size : Nat) : Text.Tidy (shownSize size) := by
  rw [shownSize]
  split
  · exact Text.tidy_nat size
  · decide

theorem plain_load (offset : Nat) : AllPlain (entry.load t source offset budget).findings := by
  have hodd : AllPlain (if offset % 2 = 1 then [Finding.oddFieldOffset entry.tag offset] else []) :=
    .ite_nameless rfl rfl
  rw [load]
  split
  · exact AllPlain.append.mpr
      ⟨hodd, AllPlain.singleton.mpr (Finding.plain_of_name rfl rfl (tidy_shownSize _))⟩
  split
  · exact AllPlain.append.mpr ⟨hodd, AllPlain.singleton.mpr (Finding.plain_of_nameless rfl rfl)⟩
  split
  · exact AllPlain.append.mpr ⟨hodd, AllPlain.singleton.mpr (Finding.plain_of_nameless rfl rfl)⟩
  · exact hodd

theorem plain_resolve (entry : Entry) (e : Encoding) (source : Source) (budget : Budget) :
    AllPlain (entry.resolve e source budget).findings := by
  rw [resolve]
  dsimp only
  split
  · exact AllPlain.singleton.mpr (Finding.plain_of_nameless rfl rfl)
  · split
    · exact plain_decode none _
    · split
      · exact plain_load _
      · exact plain_load _
      · exact AllPlain.append.mpr ⟨plain_load _, plain_decode _ _⟩

end Entry

namespace FieldRules

theorem plain_valueFindings {r : Rule} (hr : Text.Tidy r.name) (v : Value) :
    AllPlain (valueFindings r v) := by
  cases v with
  | real | char => exact AllPlain.nil
  | integer n =>
    refine AllPlain.append.mpr ⟨?_, ?_⟩
    · split
      · exact .ite (AllPlain.singleton.mpr (Finding.plain_of_name rfl rfl hr))
      · exact AllPlain.nil
    · split
      · exact .ite (AllPlain.singleton.mpr (Finding.plain_of_name rfl rfl hr))
      · exact AllPlain.nil

theorem plain_countFindings {r : Rule} (hr : Text.Tidy r.name) (count : Nat) :
    AllPlain (countFindings r count) :=
  AllPlain.append.mpr
    ⟨.ite (AllPlain.singleton.mpr (Finding.plain_of_name rfl rfl hr)),
      .ite (AllPlain.singleton.mpr (Finding.plain_of_name rfl rfl hr))⟩

theorem plain_textFindings (f : Field) : AllPlain (textFindings f) := by
  have hname : Text.Tidy f.name := Schema.tidy_tagName f.tag
  refine AllPlain.append.mpr ⟨?_, .ite ?_⟩
  · rw [characterFindings]
    dsimp only
    split
    · exact AllPlain.nil
    · exact AllPlain.append.mpr
        ⟨.ite (AllPlain.singleton.mpr (Finding.plain_of_name rfl rfl hname)),
          .ite (AllPlain.singleton.mpr (Finding.plain_of_name rfl rfl hname))⟩
  · exact .ite_nil (.ite_nil (AllPlain.singleton.mpr (Finding.plain_of_name rfl rfl hname)))

theorem plain_check (f : Field) : AllPlain (check f) := by
  have htext (t : FieldType) : AllPlain (if t == .ascii then textFindings f else []) :=
    .ite (plain_textFindings f)
  rw [check]
  split
  · exact AllPlain.nil
  · next t _ =>
    dsimp only
    split
    · exact htext t
    · next r hrule =>
      have hr := Schema.tidy_name_of_rule? hrule
      split
      · refine AllPlain.append.mpr ⟨AllPlain.append.mpr ⟨?_, plain_countFindings hr _⟩, htext t⟩
        intro g hg
        obtain ⟨v, _, hv⟩ := List.mem_flatMap.mp hg
        exact plain_valueFindings hr v g hv
      · refine AllPlain.singleton.mpr ⟨rfl, ?_⟩
        simp [Finding.names, hr, t.tidy_name, r.tidy_typeNames]

theorem plain_orderFindings (previous : Option Nat) (tag : Nat) :
    AllPlain (orderFindings previous tag) := by
  unfold orderFindings
  split
  · exact .ite_nameless rfl rfl
  · exact AllPlain.nil

end FieldRules

namespace DirectoryRules

theorem plain_mandatoryFindings (d : Directory) (index : Nat) :
    AllPlain (mandatoryFindings d index) := by
  intro f hf
  obtain ⟨r, hr, rfl⟩ := List.mem_map.mp hf
  have hrule : r ∈ Schema.rules := List.mem_of_mem_filter (List.mem_of_mem_filter hr)
  exact Finding.plain_of_name rfl rfl (Schema.tidy_rules r hrule)

theorem plain_sampleFindings (d : Directory) (index : Nat) :
    AllPlain (sampleFindings d index) := by
  rw [sampleFindings]
  split
  · exact AllPlain.nil
  · exact .ite_nameless rfl rfl

theorem plain_blockFindings (index block fileLength : Nat) (blocks : List (Nat × Nat)) :
    AllPlain (blockFindings index block fileLength blocks) := by
  induction blocks generalizing block with
  | nil => exact AllPlain.nil
  | cons first rest ih =>
    rw [blockFindings]
    split
    · exact ih _
    · exact AllPlain.singleton.mpr (Finding.plain_of_nameless rfl rfl)

theorem plain_stripFindings (d : Directory) (index fileLength : Nat) (s : Strips) :
    AllPlain (stripFindings d index fileLength s) := by
  refine AllPlain.append.mpr ⟨AllPlain.append.mpr ⟨.ite_nameless rfl rfl, ?_⟩,
    plain_blockFindings _ _ _ _⟩
  split
  · exact .ite_nameless rfl rfl
  · exact AllPlain.nil

theorem plain_tileFindings (d : Directory) (index fileLength : Nat) (t : Tiles) :
    AllPlain (tileFindings d index fileLength t) := by
  refine AllPlain.append.mpr ⟨AllPlain.append.mpr ⟨AllPlain.append.mpr ⟨AllPlain.append.mpr
    ⟨.ite_nameless rfl rfl, .ite_nameless rfl rfl⟩, .ite_nameless rfl rfl⟩, ?_⟩,
    plain_blockFindings _ _ _ _⟩
  split
  · exact .ite_nameless rfl rfl
  · exact AllPlain.nil

theorem plain_layoutFindings (d : Directory) (index fileLength : Nat) :
    AllPlain (layoutFindings d index fileLength) := by
  have hbare {f : Finding} (hcause : f.cause? = none) (hnames : f.names = []) : AllPlain [f] :=
    AllPlain.singleton.mpr (Finding.plain_of_nameless hcause hnames)
  rw [layoutFindings]
  split
  · split
    · exact plain_stripFindings _ _ _ _
    · split
      · exact hbare rfl rfl
      · exact hbare rfl rfl
  split
  · split
    · exact plain_tileFindings _ _ _ _
    · exact hbare rfl rfl
  · exact hbare rfl rfl

theorem plain_check (d : Directory) (kind : DirectoryKind) (index fileLength : Nat) :
    AllPlain (check d kind index fileLength) :=
  .ite_nil <| AllPlain.append.mpr ⟨AllPlain.append.mpr
    ⟨.ite (plain_mandatoryFindings d index), plain_layoutFindings d index fileLength⟩,
    plain_sampleFindings d index⟩

end DirectoryRules

theorem Baseline.plain_check (d : Directory) : AllPlain (check d) := by
  have hbare {f : Finding} (hcause : f.cause? = none) (hnames : f.names = []) : AllPlain [f] :=
    AllPlain.singleton.mpr (Finding.plain_of_nameless hcause hnames)
  have htags : AllPlain (tagFindings d) := by
    intro f hf
    obtain ⟨g, _, rfl⟩ := List.mem_map.mp hf
    exact Finding.plain_of_nameless rfl rfl
  have hcompression : AllPlain (compressionFindings d) := .ite_nil (hbare rfl rfl)
  have hphotometric : AllPlain (photometricFindings d) := by
    rw [photometricFindings]
    split
    · exact hbare rfl rfl
    · split
      · exact hbare rfl rfl
      · split
        · exact hbare rfl rfl
        · exact AllPlain.nil
  rw [check]
  split
  · exact hbare rfl rfl
  · exact AllPlain.append.mpr ⟨AllPlain.append.mpr ⟨htags, hcompression⟩, hphotometric⟩

namespace Intake

variable {c : Context} {s : Intake}

theorem plain_step (h : AllPlain s.findings.toList) : AllPlain (s.step c).2.findings.toList := by
  have hentry := (Entry.read c.encoding s.cursor).1.plain_resolve c.encoding c.source s.budget
  rw [step]
  dsimp only [Field.read]
  split
  · simp only [Array.toList_appendList]
    exact AllPlain.append.mpr ⟨h, hentry⟩
  · next field _ =>
    simp only [accept, Array.toList_appendList]
    exact AllPlain.append.mpr ⟨AllPlain.append.mpr ⟨h, hentry⟩,
      AllPlain.append.mpr ⟨FieldRules.plain_orderFindings _ _, FieldRules.plain_check field⟩⟩

theorem plain_run (count : Nat) (h : AllPlain s.findings.toList) :
    AllPlain (s.run c count).2.findings.toList := by
  induction count generalizing s with
  | zero => exact h
  | succ count ih =>
    have hstep := plain_step (c := c) h
    rw [run]
    split
    · next hs =>
      rw [hs] at hstep
      exact hstep
    · next hs =>
      rw [hs] at hstep
      exact ih hstep

end Intake

namespace Directory

theorem plain_of_readPart {source : Source} {offset start count : Nat} {finding : Finding}
    (h : readPart source offset start count = .error (.defect finding)) : finding.Plain := by
  rw [readPart] at h
  split at h
  · obtain rfl := Obstacle.defect.inj (Except.error.inj h)
    exact Finding.plain_of_nameless rfl rfl
  · split at h <;> cases h

theorem plain_of_readBytes {e : Encoding} {source : Source} {offset : Nat} {finding : Finding}
    (h : readBytes e source offset = .error (.defect finding)) : finding.Plain := by
  rw [readBytes] at h
  split at h
  · next hpart =>
    rw [Except.error.inj h] at hpart
    exact plain_of_readPart hpart
  · dsimp only at h
    split at h
    · obtain rfl := Obstacle.defect.inj (Except.error.inj h)
      exact Finding.plain_of_nameless rfl rfl
    · split at h
      · next hpart =>
        rw [Except.error.inj h] at hpart
        exact plain_of_readPart hpart
      · cases h

theorem plain_parityFindings (offset : Nat) : AllPlain (parityFindings offset) :=
  .ite_nameless rfl rfl

end Directory

/-- A finding of any format that is on bytes that were read, given which findings on streams are. -/
def PlainWith (onStream : Jpeg.Finding → Prop) : ImageAudit.Finding → Prop
  | .tiff f => f.Plain
  | .xmp _ => True
  | .jpeg f => onStream f

def Context.StreamsSatisfy (c : Context) (onStream : Jpeg.Finding → Prop) : Prop :=
  ∀ start length, ∀ f ∈ ((Jpeg.Decoder.new c.settings true).process
    (c.source.window start length)).stream.findings, onStream f

variable {c : Context} {onStream : Jpeg.Finding → Prop}

theorem AllPlain.map {found : List Finding} (h : AllPlain found)
    (onStream : Jpeg.Finding → Prop) :
    ∀ f ∈ found.map ImageAudit.Finding.tiff, PlainWith onStream f :=
  List.forall_mem_map.mpr h

namespace Directory

theorem plain_rulesFindings (hstreams : c.StreamsSatisfy onStream) (kind : DirectoryKind)
    (index : Nat) (d : Directory) : ∀ f ∈ rulesFindings c kind index d, PlainWith onStream f := by
  refine List.forall_mem_append.mpr
    ⟨(DirectoryRules.plain_check d kind index c.source.length).map _, ?_⟩
  refine List.forall_mem_append.mpr ⟨List.forall_mem_map.mpr fun _ _ => trivial, ?_⟩
  rw [EmbeddedData.streamFindings]
  split
  · next offset length _ _ =>
    split
    · exact List.forall_mem_map.mpr (hstreams offset length)
    · exact List.forall_mem_singleton.mpr (Finding.plain_of_nameless rfl rfl)
  · exact List.forall_mem_nil _

theorem plain_read (hstreams : c.StreamsSatisfy onStream) (kind : DirectoryKind)
    (index offset : Nat) (budget : Budget) :
    ∀ f ∈ (read c kind index offset budget).findings, PlainWith onStream f := by
  have hparity := plain_parityFindings offset
  rw [read]
  dsimp only
  split
  · next finding hbytes =>
    exact (AllPlain.append.mpr
      ⟨hparity, AllPlain.singleton.mpr (plain_of_readBytes hbytes)⟩).map _
  · exact hparity.map _
  · next count raw _ =>
    have hrun := Intake.plain_run (c := c) (s := .start raw budget) count AllPlain.nil
    have hown := (AllPlain.append.mpr ⟨hparity, hrun⟩).map onStream
    split
    · exact hown
    · exact List.forall_mem_append.mpr ⟨hown, plain_rulesFindings hstreams kind index _⟩

end Directory

namespace Survey

def Plain (onStream : Jpeg.Finding → Prop) (s : Survey) : Prop :=
  ∀ f ∈ s.findings.toList, PlainWith onStream f

theorem Plain.report {s : Survey} (h : s.Plain onStream) {finding : Finding}
    (hfinding : finding.Plain) : (s.report finding).Plain onStream := by
  rw [Plain, Survey.report, Array.toList_push]
  exact List.forall_mem_append.mpr ⟨h, List.forall_mem_singleton.mpr hfinding⟩

theorem Plain.takeReading {s : Survey} (h : s.Plain onStream) (hstreams : c.StreamsSatisfy onStream)
    (kind : DirectoryKind) (index offset : Nat) :
    (s.takeReading offset (Directory.read c kind index offset s.budget)).Plain onStream := by
  rw [Plain, Survey.takeReading]
  simp only [Array.toList_appendList]
  exact List.forall_mem_append.mpr ⟨h, Directory.plain_read hstreams kind index offset s.budget⟩

/-- A walk finds nothing but what is on bytes that were read, also up to a read that fails. -/
theorem summary_plain (hstreams : c.StreamsSatisfy onStream) :
    Summary c (fun s _ t => s.Plain onStream → t.Plain onStream)
      (fun s t => s.Plain onStream → t.Plain onStream) where
  rest _ := id
  append hst htu := htu ∘ hst
  stop hst htu := htu ∘ hst
  entered _ _ he := fun h => by
    obtain ⟨_, _, rfl⟩ := enter_ok_some he
    exact h.takeReading hstreams _ _ _
  passed he := fun h => by
    obtain ⟨_, rfl⟩ | ⟨_, rfl⟩ := enter_ok_none he
    · exact h.report (Finding.plain_of_nameless rfl rfl)
    · exact h.takeReading hstreams _ _ _
  failed he := fun h => by
    obtain ⟨_, rfl⟩ := enter_error he
    exact h.takeReading hstreams _ _ _
  tooDeep _ _ := fun h => h.report (Finding.plain_of_nameless rfl rfl)

theorem Plain.walk {s : Survey} (h : s.Plain onStream) (hstreams : c.StreamsSatisfy onStream)
    (offset : Nat) : (s.walk c offset).after.Plain onStream := by
  obtain ⟨trees, hfollows⟩ := walk_follows c offset s
  have hwalk := (summary_plain hstreams).follows (fun _ _ h => h) hfollows
  cases hresult : s.walk c offset with
  | ok u t =>
    rw [hresult] at hwalk
    exact hwalk h
  | error cause t =>
    rw [hresult] at hwalk
    obtain ⟨u, hbefore, hfail⟩ := hwalk
    exact hfail (hbefore h)

end Survey
end ImageAudit.Tiff
