import ImageAudit.Proofs.Tiff.Placement

/-! How the directories of a survey hang together. The offsets that the chain and the child lists
give are matched with the directories found there, and what is not followed is accounted for by
findings. -/
namespace ImageAudit.Tiff

mutual

/-- Below every directory of a tree stand the directories at the offsets that it lists, in their
order, but for those that are `lost`; below a directory that is `cut` stand none. -/
inductive Linked (lost cut : Nat → Prop) : DirectoryTree → Prop where
  | node {d : Directory} {subs gps : List DirectoryTree} :
      LinkedEach lost cut d.subOffsets subs → LinkedEach lost cut d.gpsOffset?.toList gps →
      Linked lost cut (.node d subs gps)
  | cut {d : Directory} : d.hasChildren = true → cut d.offset → Linked lost cut (.node d [] [])

inductive LinkedEach (lost cut : Nat → Prop) : List Nat → List DirectoryTree → Prop where
  | nil : LinkedEach lost cut [] []
  | skip {offset : Nat} {rest : List Nat} {trees : List DirectoryTree} :
      lost offset → LinkedEach lost cut rest trees → LinkedEach lost cut (offset :: rest) trees
  | take {offset : Nat} {rest : List Nat} {tree : DirectoryTree} {trees : List DirectoryTree} :
      tree.directory.offset = offset → Linked lost cut tree → LinkedEach lost cut rest trees →
      LinkedEach lost cut (offset :: rest) (tree :: trees)

end

/-- The main directories stand where the header and their next offsets say, up to a `stop`. -/
def Chained (first : Nat) (mains : List Directory) (stop : Nat) : Prop :=
  first :: mains.map (·.nextOffset) = mains.map (·.offset) ++ [stop]

theorem Directory.offsets_of_not_hasChildren {d : Directory} (h : d.hasChildren = false) :
    d.subOffsets = [] ∧ d.gpsOffset? = none := by
  obtain ⟨hsub, hgps⟩ : d.contains Tag.subDirectories = false ∧
      d.contains Tag.gpsDirectory = false := by simpa [hasChildren] using h
  have hsub : d.find? Tag.subDirectories = none := by simpa [contains] using hsub
  have hgps : d.find? Tag.gpsDirectory = none := by simpa [contains] using hgps
  exact ⟨by rw [subOffsets, hsub], by rw [gpsOffset?, word?, hgps]; rfl⟩

namespace Survey

variable {c : Context}

/-- What a survey has found stays found, and the findings on the directories that it reads are
among them. -/
theorem summary_readings (c : Context) :
    Summary c
      (fun s ps t => s.findings.toList ⊆ t.findings.toList ∧
        ∀ p ∈ ps, ∃ index budget,
          (Directory.read c p.kind index p.directory.offset budget).result =
            .ok (some p.directory) ∧
          (Directory.read c p.kind index p.directory.offset budget).findings ⊆
            t.findings.toList)
      (fun s t => s.findings.toList ⊆ t.findings.toList) where
  rest _ := ⟨List.Subset.refl _, List.forall_mem_nil _⟩
  append := by
    intro s t u ps qs ⟨hst, hps⟩ ⟨htu, hqs⟩
    refine ⟨List.Subset.trans hst htu, ?_⟩
    intro p hp
    rcases List.mem_append.mp hp with hp | hp
    · obtain ⟨index, budget, hread, hfound⟩ := hps p hp
      exact ⟨index, budget, hread, List.Subset.trans hfound htu⟩
    · exact hqs p hp
  stop hst htu := List.Subset.trans hst.1 htu
  entered := by
    intro s t kind index offset level d _ _ he
    obtain ⟨_, hread, rfl⟩ := enter_ok_some he
    obtain rfl := Directory.offset_of_read hread
    refine ⟨by simp [takeReading], ?_⟩
    intro p hp
    obtain rfl := List.mem_singleton.mp hp
    exact ⟨index, s.budget, hread, by simp [takeReading]⟩
  passed he := by
    refine ⟨?_, List.forall_mem_nil _⟩
    obtain ⟨_, rfl⟩ | ⟨_, rfl⟩ := enter_ok_none he
    · simp [report]
    · simp [takeReading]
  failed he := by
    obtain ⟨_, rfl⟩ := enter_error he
    simp [takeReading]
  tooDeep _ _ := ⟨by simp [report], List.forall_mem_nil _⟩

private theorem findings_readsEach {index levels : Nat} {kind : DirectoryKind}
    {offsets : List Nat} {s t : Survey} {trees : List DirectoryTree} (hlevels : levels ≤ maxDepth)
    (h0 : 0 ∉ offsets) (h : ReadsEach (readTree c index levels kind) offsets s trees t) :
    s.findings.toList ⊆ t.findings.toList := by
  have hsum := summary_readings c
  have hread (offset : Nat) (s : Survey) (hne : offset ≠ 0) :=
    @Summary.readTree c _ _ hsum index levels offset _ kind s hne (Nat.sub_add_cancel hlevels)
  exact (hsum.readsEach hread h0 h).1

theorem readings_follows {first : Nat} {s : Survey} {trees : List DirectoryTree}
    {result : Step Unit} (h : Follows c first s trees result) :
    s.findings.toList ⊆ result.after.findings.toList ∧
    ∀ p ∈ DirectoryTree.placementsAll trees .main 0, ∃ index budget,
      (Directory.read c p.kind index p.directory.offset budget).result =
        .ok (some p.directory) ∧
      (Directory.read c p.kind index p.directory.offset budget).findings ⊆
        result.after.findings.toList := by
  have hrest := (summary_readings c).rest
  have hwalk := (summary_readings c).follows (fun _ _ => hrest _) h
  cases result with
  | ok _ t => exact hwalk
  | error _ t =>
    obtain ⟨u, ⟨hgrow, hread⟩, hfail⟩ := hwalk
    refine ⟨List.Subset.trans hgrow hfail, ?_⟩
    intro p hp
    obtain ⟨index, budget, hresult, hfound⟩ := hread p hp
    exact ⟨index, budget, hresult, List.Subset.trans hfound hfail⟩

/-- What a survey gave up is told by its findings: `lost` holds of each offset that could not be
entered and `cut` of each directory that is nested too deep to be followed, as far as the findings
on them are among those of `log`. -/
structure Accounts (c : Context) (log : List ImageAudit.Finding) (lost cut : Nat → Prop) :
    Prop where
  lost {s t : Survey} {kind : DirectoryKind} {index offset : Nat} :
    s.enter c kind index offset = .ok none t → t.findings.toList ⊆ log → lost offset
  cut {offset : Nat} : .tiff (.nestingTooDeep offset maxDepth) ∈ log → cut offset

namespace Accounts

variable {log : List ImageAudit.Finding} {lost cut : Nat → Prop} {index levels : Nat}
  {kind : DirectoryKind}

private theorem readsEach (h : Accounts c log lost cut) (hlevels : levels ≤ maxDepth)
    (hread : ∀ {offset : Nat} {s t : Survey} {tree : DirectoryTree},
      readTree c index levels kind offset s = .ok (some tree) t → t.findings.toList ⊆ log →
      offset ≠ 0 → tree.directory.offset = offset ∧ Linked lost cut tree)
    {offsets : List Nat} (h0 : 0 ∉ offsets) {s t : Survey} {trees : List DirectoryTree}
    (hr : ReadsEach (readTree c index levels kind) offsets s trees t)
    (hlog : t.findings.toList ⊆ log) : LinkedEach lost cut offsets trees := by
  induction hr with
  | nil => exact .nil
  | skip hstep hrest ih =>
    have h0 := List.not_mem_of_not_mem_cons h0
    have hlog' := List.Subset.trans (findings_readsEach hlevels h0 hrest) hlog
    exact .skip (h.lost (readTree_ok_none hstep) hlog') (ih h0 hlog)
  | take hstep hrest ih =>
    have hne := Ne.symm (List.ne_of_not_mem_cons h0)
    have h0 := List.not_mem_of_not_mem_cons h0
    have hlog' := List.Subset.trans (findings_readsEach hlevels h0 hrest) hlog
    obtain ⟨hoffset, hlinked⟩ := hread hstep hlog' hne
    exact .take hoffset hlinked (ih h0 hlog)

/-- The induction goes over the levels that may still be read below the tree. -/
theorem readTree (h : Accounts c log lost cut) {offset : Nat} {s t : Survey}
    {tree : DirectoryTree} (hlevels : levels ≤ maxDepth)
    (hr : Survey.readTree c index levels kind offset s = .ok (some tree) t)
    (hlog : t.findings.toList ⊆ log) :
    tree.directory.offset = offset ∧ Linked lost cut tree := by
  induction levels generalizing kind offset s t tree with
  | zero =>
    cases readTree_ok_some hr with
    | @last _ _ d _ u he =>
      obtain ⟨_, hread, _⟩ := enter_ok_some he
      have hoffset := Directory.offset_of_read hread
      refine ⟨hoffset, ?_⟩
      cases hc : d.hasChildren with
      | true =>
        refine .cut hc (hoffset ▸ h.cut (hlog ?_))
        simp [hc, report]
      | false =>
        obtain ⟨hsubs, hgps⟩ := Directory.offsets_of_not_hasChildren hc
        exact .node (hsubs ▸ .nil) (hgps ▸ .nil)
  | succ levels ih =>
    cases readTree_ok_some hr with
    | @inner _ _ _ d _ _ _ u v _ he hsubs hgps =>
      obtain ⟨_, hread, _⟩ := enter_ok_some he
      have hle : levels ≤ maxDepth := Nat.le_of_succ_le hlevels
      have hgrow := findings_readsEach hle d.zero_not_mem_gpsOffset hgps
      refine ⟨Directory.offset_of_read hread, .node ?_ ?_⟩
      · exact h.readsEach hle (fun hr hlog _ => ih hle hr hlog) d.zero_not_mem_subOffsets hsubs
          (List.Subset.trans hgrow hlog)
      · exact h.readsEach hle (fun hr hlog _ => ih hle hr hlog) d.zero_not_mem_gpsOffset hgps hlog

/-- Main directories are chained as far as a walk gets, and each is linked with those below. A walk
that does not fail gets to zero or to an offset that is lost. -/
theorem follows (h : Accounts c log lost cut) {first : Nat} {s : Survey}
    {trees : List DirectoryTree} {result : Step Unit} (hf : Follows c first s trees result)
    (hlog : result.after.findings.toList ⊆ log) :
    (∃ stop, Chained first (trees.map (·.directory)) stop ∧
      ∀ t, result = .ok () t → stop = 0 ∨ lost stop) ∧
    ∀ tree ∈ trees, Linked lost cut tree := by
  induction hf with
  | done => exact ⟨⟨0, rfl, fun _ _ => .inl rfl⟩, List.forall_mem_nil _⟩
  | halt _ hr =>
    have hlost := h.lost (readTree_ok_none hr) hlog
    exact ⟨⟨_, rfl, fun _ _ => .inr hlost⟩, List.forall_mem_nil _⟩
  | fail =>
    refine ⟨⟨_, rfl, ?_⟩, List.forall_mem_nil _⟩
    intro t ht
    cases ht
  | @next offset s u tree trees _ _ hr hrest ih =>
    obtain ⟨⟨stop, hchain, hstop⟩, hlinked⟩ := ih hlog
    have hgrow : u.findings.toList ⊆ _ := (readings_follows hrest).1
    obtain ⟨hoffset, htree⟩ :=
      h.readTree (Nat.le_refl maxDepth) hr (List.Subset.trans hgrow hlog)
    refine ⟨⟨stop, ?_, hstop⟩, ?_⟩
    · rw [Chained] at hchain ⊢
      rw [List.map_cons, List.map_cons, List.map_cons, hchain, hoffset]
      rfl
    · intro tree' hmem
      rcases List.mem_cons.mp hmem with rfl | hmem
      · exact htree
      · exact hlinked tree' hmem

end Accounts
end Survey

namespace Description

/-- The directories of a description that held none at first are those that one walk read, and what
it found in each of them is among its findings. -/
theorem walk_readings (c : Context) {d : Description} {budget : Budget}
    (h : d.survey = .start budget) (first : Nat) :
    let after := (d.walk c first).2
    Survey.Follows c first (.start budget) after.survey.directories.toList
      ((Survey.start budget).walk c first) ∧
    ((Survey.start budget).walk c first).after.findings.toList = after.findings ∧
    ∀ p ∈ after.survey.placements, ∃ index left,
      (Directory.read c p.kind index p.directory.offset left).result =
        .ok (some p.directory) ∧
      (Directory.read c p.kind index p.directory.offset left).findings ⊆ after.findings := by
  intro after
  have hsurvey : after.survey = ((Survey.start budget).walk c first).after :=
    h ▸ survey_walk c first d
  obtain ⟨trees, hfollows⟩ := Survey.walk_follows c first (.start budget)
  have hdirectories : after.survey.directories.toList = trees := by
    rw [hsurvey]
    exact Survey.directories_follows hfollows
  have hlog : ((Survey.start budget).walk c first).after.findings.toList = after.findings := by
    rw [findings, hsurvey]
  obtain ⟨_, hread⟩ := Survey.readings_follows hfollows
  refine ⟨hdirectories ▸ hfollows, hlog, fun p hp => ?_⟩
  rw [Survey.placements, hdirectories] at hp
  rw [← hlog]
  exact hread p hp

end Description
end ImageAudit.Tiff
