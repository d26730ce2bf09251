import ImageAudit.Proofs.Tiff.FieldRules
import ImageAudit.Tiff.Decoder

/-! The baseline profile. Its check adds to the findings and changes none of those before it: the
confirmation alone where the directory is of the profile, and otherwise nothing but reasons why it
is not. Values that are no words are passed over, and a field for the compression whose first value
is no word counts as absent. -/
namespace ImageAudit.Tiff

namespace Baseline

def AllowsBits (photometric bits : Nat) : Prop :=
  photometric ∈ [0, 1] ∧ bits ∈ [1, 4, 8] ∨ photometric = 2 ∧ bits = 8 ∨
    photometric = 3 ∧ bits ∈ [4, 8]

theorem mem_iff_allowsBits {photometric bits : Nat} {allowed : List Nat}
    (h : bitsPerSample? photometric = some allowed) :
    bits ∈ allowed ↔ AllowsBits photometric bits := by
  unfold bitsPerSample? at h
  split at h
  case h_5 => cases h
  all_goals
    obtain rfl := Option.some.inj h
    simp [AllowsBits]

theorem isSome_bitsPerSample? {photometric : Nat} :
    (bitsPerSample? photometric).isSome = true ↔ photometric ∈ [0, 1, 2, 3] := by
  unfold bitsPerSample?
  split <;> simp_all

end Baseline

namespace Directory

structure FitsProfile (d : Directory) (photometric : Nat) : Prop where
  tags {f : Field} : f ∈ d.fields → Schema.isBaseline f.tag = true
  compression {n : Nat} : d.word? Tag.compression = some n → n ∈ [1, 2, 32773]
  interpretation : d.word? Tag.photometricInterpretation = some photometric
  known : photometric ∈ [0, 1, 2, 3]

/-- The directory is of the profile. Samples are of one bit where the field for their bits is
absent. -/
def IsBaseline (d : Directory) : Prop :=
  ∃ photometric, d.FitsProfile photometric ∧
    (d.find? Tag.bitsPerSample = none ∧ Baseline.AllowsBits photometric 1 ∨
      ∃ f, d.find? Tag.bitsPerSample = some f ∧ f.words ≠ [] ∧
        ∀ bits ∈ f.words, Baseline.AllowsBits photometric bits)

/-- The field for the bits of a sample holds no word, and the rest is as the profile asks. -/
def LeavesBitsOpen (d : Directory) : Prop :=
  ∃ photometric, d.FitsProfile photometric ∧
    ∃ f, d.find? Tag.bitsPerSample = some f ∧ f.words = []

end Directory

namespace Baseline

variable {d : Directory}

theorem tagFindings_eq_nil_iff :
    tagFindings d = [] ↔ ∀ f ∈ d.fields, Schema.isBaseline f.tag = true := by
  simp [tagFindings]

theorem compressionFindings_eq_nil_iff :
    compressionFindings d = [] ↔
      ∀ n, d.word? Tag.compression = some n → n ∈ [1, 2, 32773] := by
  simp only [compressionFindings, ite_eq_left_iff, List.contains_iff_mem, List.cons_ne_nil,
    imp_false, Decidable.not_not]
  cases d.word? Tag.compression with
  | none => simp [compressions]
  | some n => simp [compressions]

theorem photometricFindings_eq_nil_iff :
    photometricFindings d = [] ↔
      ∃ photometric, d.word? Tag.photometricInterpretation = some photometric ∧
        photometric ∈ [0, 1, 2, 3] ∧ ∀ bits ∈ bitsOf d, AllowsBits photometric bits := by
  rw [photometricFindings]
  cases d.word? Tag.photometricInterpretation with
  | none => simp
  | some photometric =>
    simp only [Option.some.injEq, exists_eq_left', ← isSome_bitsPerSample?]
    cases hallowed : bitsPerSample? photometric with
    | none => simp
    | some allowed =>
      simp only [Option.isSome_some, true_and, ← mem_iff_allowsBits hallowed]
      cases hfind : (bitsOf d).find? fun bits => !allowed.contains bits with
      | none => simpa using hfind
      | some bits =>
        have hbad := List.find?_some hfind
        have hmem := List.mem_of_find?_eq_some hfind
        simp only [List.cons_ne_nil, false_iff]
        intro hall
        simp [hall bits hmem] at hbad

theorem adverse_tagFindings : Adverse (tagFindings d) := by
  intro g hg
  obtain ⟨f, _, rfl⟩ := List.mem_map.mp hg
  rfl

theorem adverse_compressionFindings : Adverse (compressionFindings d) := by
  rw [compressionFindings]
  split
  · exact .nil
  · exact Adverse.singleton.mpr rfl

theorem adverse_photometricFindings : Adverse (photometricFindings d) := by
  rw [photometricFindings]
  split
  · exact Adverse.singleton.mpr rfl
  · split
    · exact Adverse.singleton.mpr rfl
    · split
      · exact Adverse.singleton.mpr rfl
      · exact .nil

theorem reasons_eq_nil_iff :
    tagFindings d ++ compressionFindings d ++ photometricFindings d = [] ↔
      ∃ photometric, d.FitsProfile photometric ∧
        ∀ bits ∈ bitsOf d, AllowsBits photometric bits := by
  rw [List.append_eq_nil_iff, List.append_eq_nil_iff, tagFindings_eq_nil_iff,
    compressionFindings_eq_nil_iff, photometricFindings_eq_nil_iff]
  constructor
  · rintro ⟨⟨htags, hcompression⟩, photometric, hinterpretation, hknown, hbits⟩
    exact ⟨photometric, ⟨htags _, hcompression _, hinterpretation, hknown⟩, hbits⟩
  · rintro ⟨photometric, h, hbits⟩
    exact ⟨⟨fun _ => h.tags, fun _ => h.compression⟩,
      photometric, h.interpretation, h.known, hbits⟩

theorem check_of_fitsProfile {photometric : Nat} (h : d.FitsProfile photometric)
    (hbits : ∀ bits ∈ bitsOf d, AllowsBits photometric bits) : check d = [.baseline] := by
  rw [check, reasons_eq_nil_iff.mpr ⟨photometric, h, hbits⟩]

/-- A directory is either of the profile as far as its bits tell, or there are reasons against it. -/
theorem fitsProfile_or_adverse (d : Directory) :
    (∃ photometric, d.FitsProfile photometric ∧ ∀ bits ∈ bitsOf d, AllowsBits photometric bits) ∨
      check d ≠ [] ∧ Adverse (check d) := by
  rw [← reasons_eq_nil_iff, check]
  split
  · next hreasons => exact .inl hreasons
  · next hreasons =>
    refine .inr ⟨hreasons, Adverse.append.mpr ⟨Adverse.append.mpr ?_, ?_⟩⟩
    · exact ⟨adverse_tagFindings, adverse_compressionFindings⟩
    · exact adverse_photometricFindings

end Baseline

namespace Directory

variable {d : Directory}

theorem IsBaseline.check (h : d.IsBaseline) : Baseline.check d = [.baseline] := by
  rcases h with ⟨photometric, hfits, ⟨hnone, hone⟩ | ⟨f, hsome, -, hall⟩⟩
  · apply Baseline.check_of_fitsProfile hfits
    rw [Baseline.bitsOf, hnone]
    exact List.forall_mem_singleton.mpr hone
  · apply Baseline.check_of_fitsProfile hfits
    rw [Baseline.bitsOf, hsome]
    exact hall

theorem LeavesBitsOpen.check (h : d.LeavesBitsOpen) : Baseline.check d = [.baseline] := by
  obtain ⟨photometric, hfits, f, hsome, hwords⟩ := h
  apply Baseline.check_of_fitsProfile hfits
  rw [Baseline.bitsOf, hsome]
  dsimp only
  rw [hwords]
  exact List.forall_mem_nil _

theorem isBaseline_or_leavesBitsOpen {photometric : Nat} (h : d.FitsProfile photometric)
    (hbits : ∀ bits ∈ Baseline.bitsOf d, Baseline.AllowsBits photometric bits) :
    d.IsBaseline ∨ d.LeavesBitsOpen := by
  rw [Baseline.bitsOf] at hbits
  cases hfind : d.find? Tag.bitsPerSample with
  | none =>
    rw [hfind] at hbits
    exact .inl ⟨photometric, h, .inl ⟨hfind, hbits 1 List.mem_cons_self⟩⟩
  | some f =>
    rw [hfind] at hbits
    -- Without words every bit is allowed, which tells nothing of the profile.
    by_cases hwords : f.words = []
    · exact .inr ⟨photometric, h, f, hfind, hwords⟩
    · exact .inl ⟨photometric, h, .inr ⟨f, hfind, hwords, hbits⟩⟩

end Directory

namespace Description

/-- A directory of the profile is confirmed and nothing else is said. One that is not gets errors
only, but for the case in which no bits are given. -/
theorem checkBaseline_verdict {e : Description} {d : Directory}
    (h : e.mainDirectories.head? = some d) :
    ∃ found : List Finding, e.checkBaseline.findings = e.findings ++ found.map .tiff ∧
      (d.IsBaseline → found = [.baseline]) ∧
      (¬d.IsBaseline → ¬d.LeavesBitsOpen →
        found ≠ [] ∧ ∀ finding ∈ found, finding.severity = .error) := by
  refine ⟨Baseline.check d, ?_, Directory.IsBaseline.check, ?_⟩
  · rw [checkBaseline, h]
    exact findings_foldl_report _ _
  · intro hnot hbits
    rcases Baseline.fitsProfile_or_adverse d with ⟨photometric, hfits, hall⟩ | hcheck
    · rcases Directory.isBaseline_or_leavesBitsOpen hfits hall with hbaseline | hopen
      · exact absurd hbaseline hnot
      · exact absurd hopen hbits
    · exact hcheck

/-- Where no bits are given the code confirms the directory as well, whatever the interpretation
asks of them. -/
theorem checkBaseline_of_leavesBitsOpen {e : Description} {d : Directory}
    (h : e.mainDirectories.head? = some d) (hopen : d.LeavesBitsOpen) :
    e.checkBaseline.findings = e.findings ++ [.tiff .baseline] := by
  rw [checkBaseline, h]
  dsimp only
  rw [hopen.check]
  exact findings_foldl_report _ _

def ofDirectory (d : Directory) : Description :=
  { empty .default with survey := (Survey.start .default).addMain (.node d [] []) }

example : (ofDirectory ⟨8, [⟨Tag.bitsPerSample, 3, 0, none, .empty, []⟩,
    ⟨Tag.photometricInterpretation, 3, 1, none, .empty, [.integer 2]⟩], 0⟩).checkBaseline.findings =
      [.tiff .baseline] := by
  rfl

end Description

def greyBytes : Directory :=
  ⟨8, [⟨Tag.bitsPerSample, 3, 1, none, .empty, [.integer 8]⟩,
    ⟨Tag.photometricInterpretation, 3, 1, none, .empty, [.integer 1]⟩], 0⟩

theorem greyBytes_isBaseline : greyBytes.IsBaseline := by
  refine ⟨1, ⟨?_, ?_, rfl, by decide⟩, .inr ⟨_, rfl, by decide, ?_⟩⟩
  · intro f hf
    simp only [greyBytes, List.mem_cons, List.not_mem_nil, or_false] at hf
    rcases hf with rfl | rfl <;> decide
  · intro n hn
    cases hn
  · intro bits hbits
    obtain rfl : bits = 8 := List.mem_singleton.mp hbits
    exact .inl (by decide)

theorem Description.checkBaseline_verdict_greyBytes :
    (ofDirectory greyBytes).mainDirectories.head? = some greyBytes ∧ greyBytes.IsBaseline ∧
      (ofDirectory greyBytes).checkBaseline.findings = [.tiff .baseline] := by
  have hhead : (ofDirectory greyBytes).mainDirectories.head? = some greyBytes := by rfl
  obtain ⟨found, hfindings, hconfirmed, -⟩ := checkBaseline_verdict hhead
  rw [hconfirmed greyBytes_isBaseline] at hfindings
  exact ⟨hhead, greyBytes_isBaseline, hfindings⟩

def negativeCompression : Directory :=
  ⟨8, [⟨Tag.compression, 8, 1, none, .empty, [.integer (-1)]⟩,
    ⟨Tag.photometricInterpretation, 3, 1, none, .empty, [.integer 1]⟩], 0⟩

def negativeBits : Directory :=
  ⟨8, [⟨Tag.bitsPerSample, 8, 2, none, .empty, [.integer 8, .integer (-1)]⟩,
    ⟨Tag.photometricInterpretation, 3, 1, none, .empty, [.integer 1]⟩], 0⟩

/-- Values that are no words do not keep a directory from being confirmed. -/
theorem Description.checkBaseline_confirms_negative :
    ((ofDirectory negativeCompression).checkBaseline.findings = [.tiff .baseline] ∧
      ¬(negativeCompression.find? Tag.compression = none ∨
        ∃ n ∈ [1, 2, 32773], (negativeCompression.find? Tag.compression).bind
          (·.values.head?) = some (.integer n))) ∧
    (ofDirectory negativeBits).checkBaseline.findings = [.tiff .baseline] ∧
      ¬(negativeBits.find? Tag.bitsPerSample = none ∨
        ∃ f, negativeBits.find? Tag.bitsPerSample = some f ∧
          ∀ v ∈ f.values, ∃ n ∈ [1, 4, 8], v = .integer n) := by
  refine ⟨⟨by rfl, ?_⟩, by rfl, ?_⟩
  · rintro (hnone | ⟨n, hn, hfirst⟩)
    · cases hnone
    · obtain rfl : -1 = n := Value.integer.inj (Option.some.inj hfirst)
      revert hn
      decide
  · rintro (hnone | ⟨f, hsome, hall⟩)
    · cases hnone
    · obtain rfl := Option.some.inj hsome
      obtain ⟨n, hn, hvalue⟩ := hall (.integer (-1)) (by simp)
      obtain rfl : -1 = n := Value.integer.inj hvalue
      revert hn
      decide

end ImageAudit.Tiff
