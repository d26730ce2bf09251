import ImageAudit.Tiff.Decoder

/-! Derivations of a walk. Reading a list of directories, a tree and a chain is described by what
was read and by the surveys between the steps, so that later proofs follow the steps and open no
definition. -/
namespace ImageAudit.Tiff

namespace Directory

variable {c : Context} {kind : DirectoryKind} {index offset : Nat} {budget : Budget}

/-- A directory that was read holds all the entries that were announced, and its findings are those
on its offset, on its entries and on the whole of it. -/
theorem read_ok_some {d : Directory}
    (h : (read c kind index offset budget).result = .ok (some d)) :
    ∃ count raw t, readBytes c.encoding c.source offset = .ok (count, raw) ∧
      (Intake.start raw budget).run c count = (.ok (), t) ∧
      d = t.directory c.encoding.big offset ∧
      (read c kind index offset budget).findings =
        (parityFindings offset ++ t.findings.toList).map .tiff ++ rulesFindings c kind index d := by
  rw [read] at h ⊢
  dsimp only at h ⊢
  split at h
  · cases h
  · cases h
  · next count raw hb =>
    cases hr : (Intake.start raw budget).run c count with
    | mk result t =>
      cases result with
      | error cause =>
        rw [hr] at h
        cases h
      | ok u =>
        rw [hr] at h
        obtain rfl := Option.some.inj (Except.ok.inj h)
        exact ⟨count, raw, t, hb, hr, rfl, rfl⟩

/-- Where no directory is read a defect is reported. -/
theorem read_ok_none (h : (read c kind index offset budget).result = .ok none) :
    ∃ finding, readBytes c.encoding c.source offset = .error (.defect finding) ∧
      (read c kind index offset budget).findings =
        (parityFindings offset ++ [finding]).map .tiff := by
  rw [read] at h ⊢
  dsimp only at h ⊢
  split at h
  · next finding hb => exact ⟨finding, hb, rfl⟩
  · cases h
  · next count raw hb =>
    cases hr : (Intake.start raw budget).run c count with
    | mk result t => cases result <;> (rw [hr] at h; cases h)

theorem offset_of_read {d : Directory}
    (h : (read c kind index offset budget).result = .ok (some d)) : d.offset = offset := by
  obtain ⟨_, _, _, _, _, rfl, _⟩ := read_ok_some h
  rfl

end Directory

namespace Survey

/-- The directories at `offsets` were read one after another: `trees` are those that could be
entered. -/
inductive ReadsEach (read : Nat → Survey → Step (Option DirectoryTree)) :
    List Nat → Survey → List DirectoryTree → Survey → Prop where
  | nil {s : Survey} : ReadsEach read [] s [] s
  | skip {offset : Nat} {rest : List Nat} {trees : List DirectoryTree} {s t u : Survey} :
      read offset s = .ok none t → ReadsEach read rest t trees u →
      ReadsEach read (offset :: rest) s trees u
  | take {offset : Nat} {rest : List Nat} {tree : DirectoryTree} {trees : List DirectoryTree}
      {s t u : Survey} :
      read offset s = .ok (some tree) t → ReadsEach read rest t trees u →
      ReadsEach read (offset :: rest) s (tree :: trees) u

variable {c : Context} {index offset : Nat} {kind : DirectoryKind} {s t : Survey}

/-- Nothing is read at an offset that was entered before: whatever the source, the survey gets one
finding more. -/
theorem enter_repeated (c : Context) (kind : DirectoryKind) (index : Nat)
    (h : offset ∈ s.visited) :
    s.enter c kind index offset = .ok none (s.report (.directoryRepeated offset)) := by
  rw [enter, if_pos (List.contains_iff_mem.mpr h)]

theorem enter_new (h : offset ∉ s.visited) :
    s.enter c kind index offset =
      match (Directory.read c kind index offset s.budget).result with
      | .error cause =>
        .error cause (s.takeReading offset (Directory.read c kind index offset s.budget))
      | .ok d => .ok d (s.takeReading offset (Directory.read c kind index offset s.budget)) := by
  rw [enter]
  exact if_neg (mt List.contains_iff_mem.mp h)

/-- A directory that is entered was read at an offset that was not entered before. -/
theorem enter_ok_some {d : Directory} (h : s.enter c kind index offset = .ok (some d) t) :
    offset ∉ s.visited ∧ (Directory.read c kind index offset s.budget).result = .ok (some d) ∧
      t = s.takeReading offset (Directory.read c kind index offset s.budget) := by
  by_cases hv : offset ∈ s.visited
  · cases (enter_repeated c kind index hv).symm.trans h
  · rw [enter_new hv] at h
    split at h
    · cases h
    · next hr =>
      obtain ⟨rfl, rfl⟩ := EStateM.Result.ok.inj h
      exact ⟨hv, hr, rfl⟩

/-- Where no directory is entered the offset was entered before or a defect was found. -/
theorem enter_ok_none (h : s.enter c kind index offset = .ok none t) :
    (offset ∈ s.visited ∧ t = s.report (.directoryRepeated offset)) ∨
    (Directory.read c kind index offset s.budget).result = .ok none ∧
      t = s.takeReading offset (Directory.read c kind index offset s.budget) := by
  by_cases hv : offset ∈ s.visited
  · obtain ⟨_, rfl⟩ := EStateM.Result.ok.inj ((enter_repeated c kind index hv).symm.trans h)
    exact .inl ⟨hv, rfl⟩
  · rw [enter_new hv] at h
    split at h
    · cases h
    · next hr =>
      obtain ⟨rfl, rfl⟩ := EStateM.Result.ok.inj h
      exact .inr ⟨hr, rfl⟩

theorem enter_error {cause : ReadError} (h : s.enter c kind index offset = .error cause t) :
    (Directory.read c kind index offset s.budget).result = .error cause ∧
      t = s.takeReading offset (Directory.read c kind index offset s.budget) := by
  by_cases hv : offset ∈ s.visited
  · cases (enter_repeated c kind index hv).symm.trans h
  · rw [enter_new hv] at h
    split at h
    · next hr =>
      obtain ⟨rfl, rfl⟩ := EStateM.Result.error.inj h
      exact ⟨hr, rfl⟩
    · cases h

variable {read : Nat → Survey → Step (Option DirectoryTree)}

theorem readEach_ok {offsets : List Nat} {before all : Array DirectoryTree}
    (h : readEach read offsets before s = .ok all t) :
    ∃ trees, all.toList = before.toList ++ trees ∧ ReadsEach read offsets s trees t := by
  induction offsets generalizing before s with
  | nil =>
    injection h with hall ht
    subst hall ht
    exact ⟨[], by simp, .nil⟩
  | cons offset rest ih =>
    rw [readEach] at h
    split at h
    · cases h
    · next hr =>
      obtain ⟨trees, hall, hrest⟩ := ih h
      exact ⟨trees, hall, .skip hr hrest⟩
    · next tree u hr =>
      obtain ⟨trees, hall, hrest⟩ := ih h
      exact ⟨tree :: trees, by simpa using hall, .take hr hrest⟩

/-- Of a list of directories that fails, all before the failing one were read. -/
theorem readEach_error {offsets : List Nat} {before : Array DirectoryTree} {cause : ReadError}
    (h : readEach read offsets before s = .error cause t) :
    ∃ done offset rest trees u, offsets = done ++ offset :: rest ∧
      ReadsEach read done s trees u ∧ read offset u = .error cause t := by
  induction offsets generalizing before s with
  | nil => cases h
  | cons offset rest ih =>
    rw [readEach] at h
    split at h
    · next hr =>
      injection h with hcause ht
      subst hcause ht
      exact ⟨[], offset, rest, [], s, rfl, .nil, hr⟩
    · next hr =>
      obtain ⟨done, failing, later, trees, u, rfl, hdone, hfail⟩ := ih h
      exact ⟨offset :: done, failing, later, trees, u, rfl, .skip hr hdone, hfail⟩
    · next tree _ hr =>
      obtain ⟨done, failing, later, trees, u, rfl, hdone, hfail⟩ := ih h
      exact ⟨offset :: done, failing, later, tree :: trees, u, rfl, .take hr hdone, hfail⟩

/-- A tree that was read has the directory at its offset on top. On the last level nothing is read
below it; above, its sub-directories are read and then its GPS directory. -/
inductive ReadsTree (c : Context) (index : Nat) :
    Nat → DirectoryKind → Nat → Survey → DirectoryTree → Survey → Prop where
  | last {kind : DirectoryKind} {offset : Nat} {d : Directory} {s t : Survey} :
      s.enter c kind index offset = .ok (some d) t →
      ReadsTree c index 0 kind offset s (.node d [] [])
        (if d.hasChildren then t.report (.nestingTooDeep offset maxDepth) else t)
  | inner {levels : Nat} {kind : DirectoryKind} {offset : Nat} {d : Directory}
      {subs gps : List DirectoryTree} {s t u v : Survey} :
      s.enter c kind index offset = .ok (some d) t →
      ReadsEach (readTree c index levels .sub) d.subOffsets t subs u →
      ReadsEach (readTree c index levels .gps) d.gpsOffset?.toList u gps v →
      ReadsTree c index (levels + 1) kind offset s (.node d subs gps) v

variable {levels : Nat}

theorem readTree_ok_some {tree : DirectoryTree}
    (h : readTree c index levels kind offset s = .ok (some tree) t) :
    ReadsTree c index levels kind offset s tree t := by
  cases levels with
  | zero =>
    rw [readTree] at h
    split at h
    · cases h
    · cases h
    · next he =>
      injection h with htree ht
      injection htree with htree
      subst htree ht
      exact .last he
  | succ levels =>
    rw [readTree] at h
    split at h
    · cases h
    · cases h
    · next he =>
      split at h
      · cases h
      · next hs =>
        split at h
        · cases h
        · next hg =>
          injection h with htree ht
          injection htree with htree
          subst htree ht
          obtain ⟨subs, hsubs, hreadSubs⟩ := readEach_ok hs
          obtain ⟨gps, hgps, hreadGps⟩ := readEach_ok hg
          rw [hsubs, hgps]
          exact .inner he hreadSubs hreadGps

/-- No tree is read exactly when the directory on top is not entered. -/
theorem readTree_ok_none (h : readTree c index levels kind offset s = .ok none t) :
    s.enter c kind index offset = .ok none t := by
  cases levels with
  | zero =>
    rw [readTree] at h
    split at h
    · cases h
    · next he =>
      injection h with _ ht
      exact ht ▸ he
    · cases h
  | succ levels =>
    rw [readTree] at h
    split at h
    · cases h
    · next he =>
      injection h with _ ht
      exact ht ▸ he
    · split at h
      · cases h
      · split at h <;> cases h

/-- A tree fails at the directory on top, or below it once that was entered. -/
theorem readTree_error {cause : ReadError}
    (h : readTree c index levels kind offset s = .error cause t) :
    s.enter c kind index offset = .error cause t ∨
    ∃ below d u, levels = below + 1 ∧ s.enter c kind index offset = .ok (some d) u ∧
      (readEach (readTree c index below .sub) d.subOffsets #[] u = .error cause t ∨
        ∃ subs v, ReadsEach (readTree c index below .sub) d.subOffsets u subs v ∧
          readEach (readTree c index below .gps) d.gpsOffset?.toList #[] v = .error cause t) := by
  cases levels with
  | zero =>
    rw [readTree] at h
    split at h
    · next he =>
      injection h with hcause ht
      exact .inl (hcause ▸ ht ▸ he)
    · cases h
    · cases h
  | succ levels =>
    rw [readTree] at h
    split at h
    · next he =>
      injection h with hcause ht
      exact .inl (hcause ▸ ht ▸ he)
    · cases h
    · next d u he =>
      refine .inr ⟨levels, d, u, rfl, he, ?_⟩
      split at h
      · next hs =>
        injection h with hcause ht
        exact .inl (hcause ▸ ht ▸ hs)
      · next hs =>
        obtain ⟨subs, _, hreadSubs⟩ := readEach_ok hs
        split at h
        · next hg =>
          injection h with hcause ht
          exact .inr ⟨subs, _, hreadSubs, hcause ▸ ht ▸ hg⟩
        · cases h

/-- The chain from an offset was followed: `trees` are the main directories that were read in full,
and the last argument is what came of the walk. -/
inductive Follows (c : Context) : Nat → Survey → List DirectoryTree → Step Unit → Prop where
  | done {s : Survey} : Follows c 0 s [] (.ok () s)
  | halt {offset : Nat} {s t : Survey} : offset ≠ 0 → s.readMain c offset = .ok none t →
      Follows c offset s [] (.ok () t)
  | fail {offset : Nat} {s t : Survey} {cause : ReadError} : offset ≠ 0 →
      s.readMain c offset = .error cause t → Follows c offset s [] (.error cause t)
  | next {offset : Nat} {s t : Survey} {tree : DirectoryTree} {trees : List DirectoryTree}
      {result : Step Unit} : offset ≠ 0 → s.readMain c offset = .ok (some tree) t →
      Follows c tree.directory.nextOffset (t.addMain tree) trees result →
      Follows c offset s (tree :: trees) result

theorem walk_zero (c : Context) (s : Survey) : s.walk c 0 = .ok () s := by
  rw [walk, if_pos rfl]

theorem walk_fail {cause : ReadError} (h0 : offset ≠ 0)
    (h : s.readMain c offset = .error cause t) : s.walk c offset = .error cause t := by
  rw [walk, if_neg h0]
  split
  · next hr =>
    obtain ⟨rfl, rfl⟩ := EStateM.Result.error.inj (hr.symm.trans h)
    rfl
  · next hr => cases hr.symm.trans h
  · next hr => cases hr.symm.trans h

theorem walk_halt (h0 : offset ≠ 0) (h : s.readMain c offset = .ok none t) :
    s.walk c offset = .ok () t := by
  rw [walk, if_neg h0]
  split
  · next hr => cases hr.symm.trans h
  · next hr => rw [(EStateM.Result.ok.inj (hr.symm.trans h)).2]
  · next hr => cases hr.symm.trans h

theorem walk_next {tree : DirectoryTree} (h0 : offset ≠ 0)
    (h : s.readMain c offset = .ok (some tree) t) :
    s.walk c offset = (t.addMain tree).walk c tree.directory.nextOffset := by
  rw [walk, if_neg h0]
  split
  · next hr => cases hr.symm.trans h
  · next hr => cases hr.symm.trans h
  · next hr =>
    obtain ⟨htree, rfl⟩ := EStateM.Result.ok.inj (hr.symm.trans h)
    obtain rfl := Option.some.inj htree
    rfl

theorem walk_follows (c : Context) (offset : Nat) (s : Survey) :
    ∃ trees, Follows c offset s trees (s.walk c offset) := by
  induction offset, s using walk.induct c with
  | case1 s => exact ⟨[], walk_zero c s ▸ .done⟩
  | case2 offset s h0 cause t hr => exact ⟨[], walk_fail h0 hr ▸ .fail h0 hr⟩
  | case3 offset s h0 t hr => exact ⟨[], walk_halt h0 hr ▸ .halt h0 hr⟩
  | case4 offset s h0 tree t hr _ ih =>
    obtain ⟨trees, hrest⟩ := ih
    exact ⟨tree :: trees, walk_next h0 hr ▸ .next h0 hr hrest⟩

end Survey

namespace Description

theorem survey_walk (c : Context) (offset : Nat) (d : Description) :
    (d.walk c offset).2.survey = (d.survey.walk c offset).after := by
  rw [walk]
  split
  · next h => rw [h]; rfl
  · next h => rw [h]; rfl

theorem header_walk (c : Context) (offset : Nat) (d : Description) :
    (d.walk c offset).2.header = d.header := by
  rw [walk]
  split <;> rfl

theorem walk_ok {c : Context} {offset : Nat} {d : Description}
    (h : (d.walk c offset).1 = .ok ()) : ∃ t, d.survey.walk c offset = .ok () t := by
  rw [walk] at h
  split at h
  · cases h
  · next t hw => exact ⟨t, hw⟩

end Description
end ImageAudit.Tiff
