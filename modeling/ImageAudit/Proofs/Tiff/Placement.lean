import ImageAudit.Proofs.Tiff.Derivation

/-! The directories of a survey with their places. A tree is laid out as a list, so that what a walk
does can be said as a relation between the survey before it, the directories read and the survey
after it. Such a relation holds of every walk once it holds of entering one directory. -/
namespace ImageAudit.Tiff

structure Placement where
  kind : DirectoryKind
  level : Nat
  directory : Directory

namespace DirectoryTree

mutual

def placements : DirectoryTree → DirectoryKind → Nat → List Placement
  | node d subs gps, kind, level =>
    ⟨kind, level, d⟩ :: (placementsAll subs .sub (level + 1) ++ placementsAll gps .gps (level + 1))

def placementsAll : List DirectoryTree → DirectoryKind → Nat → List Placement
  | [], _, _ => []
  | tree :: trees, kind, level => placements tree kind level ++ placementsAll trees kind level

end

theorem placementsAll_append (first second : List DirectoryTree) (kind : DirectoryKind)
    (level : Nat) : placementsAll (first ++ second) kind level =
      placementsAll first kind level ++ placementsAll second kind level := by
  induction first with
  | nil => rfl
  | cons tree first ih => simp only [List.cons_append, placementsAll, ih, List.append_assoc]

end DirectoryTree

namespace Directory

theorem zero_not_mem_subOffsets (d : Directory) : 0 ∉ d.subOffsets := by
  rw [subOffsets]
  split <;> simp

theorem zero_not_mem_gpsOffset (d : Directory) : 0 ∉ d.gpsOffset?.toList := by
  simp [gpsOffset?]

end Directory

namespace Survey

open DirectoryTree

def placements (s : Survey) : List Placement := placementsAll s.directories.toList .main 0

/-- Relations that sum up what happened: `R` from one survey to a later one over the directories
read in between, and `E` up to a read that failed. They are kept by doing nothing and by doing one
thing after another, and hold of each thing that a walk does. -/
structure Summary (c : Context) (R : Survey → List Placement → Survey → Prop)
    (E : Survey → Survey → Prop) : Prop where
  rest (s : Survey) : R s [] s
  append {s t u : Survey} {ps qs : List Placement} : R s ps t → R t qs u → R s (ps ++ qs) u
  stop {s t u : Survey} {ps : List Placement} : R s ps t → E t u → E s u
  entered {s t : Survey} {kind : DirectoryKind} {index offset level : Nat} {d : Directory} :
    offset ≠ 0 → level ≤ maxDepth → s.enter c kind index offset = .ok (some d) t →
      R s [⟨kind, level, d⟩] t
  passed {s t : Survey} {kind : DirectoryKind} {index offset : Nat} :
    s.enter c kind index offset = .ok none t → R s [] t
  failed {s t : Survey} {kind : DirectoryKind} {index offset : Nat} {cause : ReadError} :
    s.enter c kind index offset = .error cause t → E s t
  tooDeep (s : Survey) (offset : Nat) : R s [] (s.report (.nestingTooDeep offset maxDepth))

namespace Summary

variable {c : Context} {R : Survey → List Placement → Survey → Prop} {E : Survey → Survey → Prop}

def OfTree (R : Survey → List Placement → Survey → Prop) (E : Survey → Survey → Prop)
    (kind : DirectoryKind) (level : Nat) (s : Survey) : Step (Option DirectoryTree) → Prop
  | .ok none t => R s [] t
  | .ok (some tree) t => R s (tree.placements kind level) t
  | .error _ t => E s t

theorem readsEach (h : Summary c R E) {read : Nat → Survey → Step (Option DirectoryTree)}
    {kind : DirectoryKind} {level : Nat}
    (hread : ∀ offset s, offset ≠ 0 → OfTree R E kind level s (read offset s))
    {offsets : List Nat} (h0 : 0 ∉ offsets) {s t : Survey} {trees : List DirectoryTree}
    (hr : ReadsEach read offsets s trees t) : R s (placementsAll trees kind level) t := by
  induction hr with
  | nil => exact h.rest _
  | @skip offset _ _ s _ _ hstep _ ih =>
    have hfirst := hread offset s (Ne.symm (List.ne_of_not_mem_cons h0))
    rw [hstep] at hfirst
    exact h.append hfirst (ih (List.not_mem_of_not_mem_cons h0))
  | @take offset _ _ _ s _ _ hstep _ ih =>
    have hfirst := hread offset s (Ne.symm (List.ne_of_not_mem_cons h0))
    rw [hstep] at hfirst
    exact h.append hfirst (ih (List.not_mem_of_not_mem_cons h0))

private theorem readEach_fails (h : Summary c R E)
    {read : Nat → Survey → Step (Option DirectoryTree)} {kind : DirectoryKind} {level : Nat}
    (hread : ∀ offset s, offset ≠ 0 → OfTree R E kind level s (read offset s))
    {offsets : List Nat} (h0 : 0 ∉ offsets) {s t : Survey} {cause : ReadError}
    (hr : readEach read offsets #[] s = .error cause t) : E s t := by
  obtain ⟨done, offset, rest, trees, u, rfl, hdone, hfail⟩ := readEach_error hr
  have hne : offset ≠ 0 := fun he => h0 (by simp [he])
  have hlast := hread offset u hne
  rw [hfail] at hlast
  exact h.stop (h.readsEach hread (fun hm => h0 (List.mem_append_left _ hm)) hdone) hlast

/-- The induction goes over the levels that may still be read below the tree. -/
theorem readTree (h : Summary c R E) {index levels offset level : Nat} {kind : DirectoryKind}
    {s : Survey} (h0 : offset ≠ 0) (hlevel : level + levels = maxDepth) :
    OfTree R E kind level s (readTree c index levels kind offset s) := by
  induction levels generalizing kind offset level s with
  | zero =>
    cases hr : Survey.readTree c index 0 kind offset s with
    | error cause t =>
      obtain he | ⟨_, _, _, hz, _⟩ := readTree_error hr
      · exact h.failed he
      · exact absurd hz (by omega)
    | ok tree t =>
      cases tree with
      | none => exact h.passed (readTree_ok_none hr)
      | some tree =>
        cases readTree_ok_some hr with
        | last he =>
          have htop := h.entered h0 (by omega : level ≤ maxDepth) he
          change R s [_] (if _ then _ else _)
          split
          · exact h.append htop (h.tooDeep _ _)
          · exact htop
  | succ levels ih =>
    have below (k : DirectoryKind) (o : Nat) (u : Survey) (ho : o ≠ 0) :
        OfTree R E k (level + 1) u (Survey.readTree c index levels k o u) :=
      ih ho (by omega)
    cases hr : Survey.readTree c index (levels + 1) kind offset s with
    | error cause t =>
      obtain he | ⟨_, d, u, hl, he, hbelow⟩ := readTree_error hr
      · exact h.failed he
      · obtain rfl := Nat.succ.inj hl
        have htop := h.entered h0 (by omega : level ≤ maxDepth) he
        obtain hsubs | ⟨subs, v, hsubs, hgps⟩ := hbelow
        · exact h.stop htop (h.readEach_fails (below .sub) (d.zero_not_mem_subOffsets) hsubs)
        · have hmid := h.readsEach (below .sub) (d.zero_not_mem_subOffsets) hsubs
          exact h.stop (h.append htop hmid)
            (h.readEach_fails (below .gps) (d.zero_not_mem_gpsOffset) hgps)
    | ok tree t =>
      cases tree with
      | none => exact h.passed (readTree_ok_none hr)
      | some tree =>
        cases readTree_ok_some hr with
        | @inner _ _ _ d subs gps _ u v _ he hsubs hgps =>
          have htop := h.entered h0 (by omega : level ≤ maxDepth) he
          have hmid := h.readsEach (below .sub) (d.zero_not_mem_subOffsets) hsubs
          have hend := h.readsEach (below .gps) (d.zero_not_mem_gpsOffset) hgps
          exact h.append htop (h.append hmid hend)

theorem readMain (h : Summary c R E) {offset : Nat} {s : Survey} (h0 : offset ≠ 0) :
    OfTree R E .main 0 s (s.readMain c offset) :=
  h.readTree h0 (Nat.zero_add _)

/-- What the relations say of a walk that read the main directories `trees`, perhaps before a read
that failed. -/
def OfWalk (R : Survey → List Placement → Survey → Prop) (E : Survey → Survey → Prop)
    (s : Survey) (trees : List DirectoryTree) : Step Unit → Prop
  | .ok _ t => R s (placementsAll trees .main 0) t
  | .error _ t => ∃ u, R s (placementsAll trees .main 0) u ∧ E u t

theorem follows (h : Summary c R E)
    (hadd : ∀ (s : Survey) (tree : DirectoryTree), R s [] (s.addMain tree))
    {offset : Nat} {s : Survey} {trees : List DirectoryTree} {result : Step Unit}
    (hf : Follows c offset s trees result) : OfWalk R E s trees result := by
  induction hf with
  | done => exact h.rest _
  | @halt _ s t h0 hr =>
    have hstep := h.readMain (s := s) h0
    rw [hr] at hstep
    exact hstep
  | @fail _ s t cause h0 hr =>
    have hstep := h.readMain (s := s) h0
    rw [hr] at hstep
    exact ⟨s, h.rest s, hstep⟩
  | @next _ s t tree trees result h0 hr _ ih =>
    have hstep := h.readMain (s := s) h0
    rw [hr] at hstep
    have hfirst : R s (tree.placements .main 0) (t.addMain tree) := by
      simpa using h.append hstep (hadd t tree)
    cases result with
    | ok _ u => exact h.append hfirst ih
    | error _ u =>
      obtain ⟨v, hrest, hfail⟩ := ih
      exact ⟨v, h.append hfirst hrest, hfail⟩

end Summary

private theorem directories_enter {c : Context} {kind : DirectoryKind} {index offset : Nat}
    {s t : Survey} {d : Option Directory} (h : s.enter c kind index offset = .ok d t) :
    t.directories = s.directories := by
  cases d with
  | none =>
    obtain ⟨_, rfl⟩ | ⟨_, rfl⟩ := enter_ok_none h
    · rfl
    · rfl
  | some d =>
    obtain ⟨_, _, rfl⟩ := enter_ok_some h
    rfl

/-- Main directories are added by the walk alone, not by the reading of a tree. -/
theorem summary_directories (c : Context) :
    Summary c (fun s _ t => t.directories = s.directories)
      (fun s t => t.directories = s.directories) where
  rest _ := rfl
  append hst htu := htu.trans hst
  stop hst htu := htu.trans hst
  entered _ _ he := directories_enter he
  passed he := directories_enter he
  failed he := by
    obtain ⟨_, rfl⟩ := enter_error he
    rfl
  tooDeep _ _ := rfl

theorem directories_follows {c : Context} {offset : Nat} {s : Survey}
    {trees : List DirectoryTree} {result : Step Unit} (h : Follows c offset s trees result) :
    result.after.directories.toList = s.directories.toList ++ trees := by
  induction h with
  | done => exact (List.append_nil _).symm
  | @halt _ s t h0 hr =>
    have hkeep := (summary_directories c).readMain (s := s) h0
    rw [hr] at hkeep
    exact (congrArg Array.toList hkeep).trans (List.append_nil _).symm
  | @fail _ s t cause h0 hr =>
    have hkeep := (summary_directories c).readMain (s := s) h0
    rw [hr] at hkeep
    exact (congrArg Array.toList hkeep).trans (List.append_nil _).symm
  | @next _ s t tree trees result h0 hr _ ih =>
    have hkeep := (summary_directories c).readMain (s := s) h0
    rw [hr] at hkeep
    have hadd : (t.addMain tree).directories = s.directories.push tree :=
      congrArg (·.push tree) hkeep
    rw [ih, hadd, Array.toList_push, List.append_assoc, List.singleton_append]

/-- A walk adds the main directories that it read in full, also when it fails later. -/
theorem placements_follows {c : Context} {offset : Nat} {s : Survey}
    {trees : List DirectoryTree} {result : Step Unit} (h : Follows c offset s trees result) :
    result.after.placements = s.placements ++ placementsAll trees .main 0 := by
  rw [placements, directories_follows h, placementsAll_append, placements]

end Survey
end ImageAudit.Tiff
