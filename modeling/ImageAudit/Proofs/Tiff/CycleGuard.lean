import ImageAudit.Proofs.Tiff.Placement

/-! The cycle guard. However the offsets of a file refer to one another, and however many walks one
description takes in, every walk ends, no offset yields two directories, and an offset that comes up
again costs one finding and no reading. -/
namespace ImageAudit.Tiff

namespace Survey

open DirectoryTree

/-- Following the chain with a limit on the directories that may be read; `none` when more are
needed. -/
def walkWithin (c : Context) : (turns offset : Nat) → Survey → Option (Step Unit)
  | 0, _, _ => none
  | turns + 1, offset, s =>
    if offset = 0 then some (.ok () s)
    else match s.readMain c offset with
      | .error cause t => some (.error cause t)
      | .ok none t => some (.ok () t)
      | .ok (some tree) t => walkWithin c turns tree.directory.nextOffset (t.addMain tree)

variable {c : Context} {offset : Nat} {s t : Survey} {trees : List DirectoryTree}
  {result : Step Unit}

/-- Every main directory uses up an offset of the file. -/
private theorem length_le_unvisited (h : Follows c offset s trees result) :
    trees.length ≤ s.unvisited c.source.length := by
  induction h with
  | done => exact Nat.zero_le _
  | halt _ _ => exact Nat.zero_le _
  | fail _ _ => exact Nat.zero_le _
  | next _ hr _ ih => exact Nat.succ_le_of_lt (Nat.lt_of_le_of_lt ih (unvisited_readMain hr))

private theorem walkWithin_follows (h : Follows c offset s trees result) {turns : Nat}
    (hturns : trees.length < turns) : walkWithin c turns offset s = some result := by
  induction h generalizing turns with
  | done =>
    obtain ⟨turns, rfl⟩ := Nat.exists_eq_succ_of_ne_zero (Nat.ne_zero_of_lt hturns)
    rfl
  | halt h0 hr =>
    obtain ⟨turns, rfl⟩ := Nat.exists_eq_succ_of_ne_zero (Nat.ne_zero_of_lt hturns)
    rw [walkWithin, if_neg h0, hr]
  | fail h0 hr =>
    obtain ⟨turns, rfl⟩ := Nat.exists_eq_succ_of_ne_zero (Nat.ne_zero_of_lt hturns)
    rw [walkWithin, if_neg h0, hr]
  | next h0 hr _ ih =>
    obtain ⟨turns, rfl⟩ := Nat.exists_eq_succ_of_ne_zero (Nat.ne_zero_of_lt hturns)
    rw [walkWithin, if_neg h0, hr]
    exact ih (Nat.lt_of_succ_lt_succ hturns)

/-- One turn more than there are unvisited offsets in the file is enough for any chain. -/
theorem walkWithin_unvisited (c : Context) (offset : Nat) (s : Survey) :
    walkWithin c (s.unvisited c.source.length + 1) offset s = some (s.walk c offset) := by
  obtain ⟨trees, h⟩ := walk_follows c offset s
  exact walkWithin_follows h (Nat.lt_succ_of_le (length_le_unvisited h))

/-- The directories `ps` were read while the visited offsets went from `before` to `after`, each at
an offset of its own that was not visited before and is now. -/
structure ReadsFresh (before : List Nat) (ps : List Placement) (after : List Nat) : Prop where
  keeps : before ⊆ after
  distinct : (ps.map (·.directory.offset)).Nodup
  unvisited : ∀ p ∈ ps, p.directory.offset ∉ before
  visited : ∀ p ∈ ps, p.directory.offset ∈ after
  placed : ∀ p ∈ ps, p.directory.offset ≠ 0 ∧ p.level ≤ maxDepth

namespace ReadsFresh

variable {before middle after : List Nat} {ps qs : List Placement}

protected theorem nil (h : before ⊆ after) : ReadsFresh before [] after :=
  ⟨h, List.nodup_nil, List.forall_mem_nil _, List.forall_mem_nil _, List.forall_mem_nil _⟩

protected theorem append (hp : ReadsFresh before ps middle) (hq : ReadsFresh middle qs after) :
    ReadsFresh before (ps ++ qs) after where
  keeps := List.Subset.trans hp.keeps hq.keeps
  distinct := by
    rw [List.map_append, List.nodup_append]
    refine ⟨hp.distinct, hq.distinct, ?_⟩
    intro o ho o' ho' he
    obtain ⟨p, hmem, rfl⟩ := List.mem_map.mp ho
    obtain ⟨q, hmem', rfl⟩ := List.mem_map.mp ho'
    exact hq.unvisited q hmem' (he ▸ hp.visited p hmem)
  unvisited p hmem := by
    rcases List.mem_append.mp hmem with hmem | hmem
    · exact hp.unvisited p hmem
    · exact fun hv => hq.unvisited p hmem (hp.keeps hv)
  visited p hmem := by
    rcases List.mem_append.mp hmem with hmem | hmem
    · exact hq.keeps (hp.visited p hmem)
    · exact hq.visited p hmem
  placed p hmem := by
    rcases List.mem_append.mp hmem with hmem | hmem
    · exact hp.placed p hmem
    · exact hq.placed p hmem

protected theorem singleton {offset level : Nat} {kind : DirectoryKind} {d : Directory}
    (ho : d.offset = offset) (h0 : offset ≠ 0) (hlevel : level ≤ maxDepth)
    (hnew : offset ∉ before) : ReadsFresh before [⟨kind, level, d⟩] (offset :: before) := by
  subst ho
  refine ⟨List.subset_cons_self _ _, List.pairwise_singleton _ _, ?_, ?_, ?_⟩
  · intro p hp
    obtain rfl := List.mem_singleton.mp hp
    exact hnew
  · intro p hp
    obtain rfl := List.mem_singleton.mp hp
    exact List.mem_cons_self
  · intro p hp
    obtain rfl := List.mem_singleton.mp hp
    exact ⟨h0, hlevel⟩

end ReadsFresh

/-- The visited offsets carry distinctness through chain, sub-directories and GPS directories
alike. -/
theorem summary_readsFresh (c : Context) :
    Summary c (fun s ps t => ReadsFresh s.visited ps t.visited)
      (fun s t => s.visited ⊆ t.visited) where
  rest _ := .nil (List.Subset.refl _)
  append := .append
  stop hst htu := List.Subset.trans hst.keeps htu
  entered h0 hlevel he := by
    obtain ⟨hnew, hread, rfl⟩ := enter_ok_some he
    exact .singleton (Directory.offset_of_read hread) h0 hlevel hnew
  passed he := by
    obtain ⟨_, rfl⟩ | ⟨_, rfl⟩ := enter_ok_none he
    · exact .nil (List.Subset.refl _)
    · exact .nil (List.subset_cons_self _ _)
  failed he := by
    obtain ⟨_, rfl⟩ := enter_error he
    exact List.subset_cons_self _ _
  tooDeep _ _ := .nil (List.Subset.refl _)

private theorem readsFresh_follows (h : Follows c offset s trees result) :
    ReadsFresh s.visited (placementsAll trees .main 0) result.after.visited := by
  have hwalk := (summary_readsFresh c).follows (fun _ _ => .nil (List.Subset.refl _)) h
  cases result with
  | ok _ t => exact hwalk
  | error _ t =>
    obtain ⟨u, hread, hfail⟩ := hwalk
    have hall := hread.append (.nil hfail)
    rw [List.append_nil] at hall
    exact hall

/-- All directories of a survey stand at visited offsets, no two at the same one and none at offset
zero, and no more levels down than are followed. -/
def Guarded (s : Survey) : Prop := ReadsFresh [] s.placements s.visited

theorem guarded_start (budget : Budget) : (start budget).Guarded := .nil (List.Subset.refl _)

/-- A walk keeps the guard, whether it ends or fails. -/
theorem Guarded.walk (h : s.Guarded) (c : Context) (offset : Nat) :
    (s.walk c offset).after.Guarded := by
  obtain ⟨trees, hf⟩ := walk_follows c offset s
  rw [Guarded, placements_follows hf]
  exact ReadsFresh.append h (readsFresh_follows hf)

/-- At an offset that was visited before, a child list goes on with one finding more. -/
theorem readEach_repeated (c : Context) (index levels : Nat) (kind : DirectoryKind)
    (h : offset ∈ s.visited) (rest : List Nat) (trees : Array DirectoryTree) :
    readEach (readTree c index levels kind) (offset :: rest) trees s =
      readEach (readTree c index levels kind) rest trees
        (s.report (.directoryRepeated offset)) := by
  have htree : readTree c index levels kind offset s =
      .ok none (s.report (.directoryRepeated offset)) := by
    cases levels <;> rw [readTree, enter_repeated c kind index h]
  rw [readEach, htree]

/-- At an offset that was visited before, the chain ends with one finding more. -/
theorem walk_repeated (c : Context) (h0 : offset ≠ 0) (h : offset ∈ s.visited) :
    s.walk c offset = .ok () (s.report (.directoryRepeated offset)) := by
  apply walk_halt h0
  rw [readMain, maxDepth, readTree, enter_repeated c .main _ h]

end Survey

namespace Description

def walks (c : Context) (offsets : List Nat) (d : Description) : Description :=
  offsets.foldl (fun d offset => (d.walk c offset).2) d

theorem guarded_walks (c : Context) (offsets : List Nat) {d : Description}
    (h : d.survey.Guarded) : (d.walks c offsets).survey.Guarded := by
  induction offsets generalizing d with
  | nil => exact h
  | cons offset offsets ih =>
    apply ih
    rw [survey_walk]
    exact h.walk c offset

/-- Whatever walks were made into a description that was empty at first, the next one ends within
as many turns as there are unvisited offsets in the file, and one. After it all directories of the
description, the main ones and those below them, have distinct offsets, each of them visited and
not zero, and none is more than eight levels below its main directory. An offset that is visited
already is refused, in a child list as in the chain: that adds one finding and nothing else, and
is the same for every source, so none is read. -/
theorem walks_enter_each_offset_once (c : Context) (budget : Budget) (earlier : List Nat)
    (offset : Nat) :
    let before := (empty budget).walks c earlier
    let after := (before.walk c offset).2.survey
    (Survey.walkWithin c (before.survey.unvisited c.source.length + 1) offset before.survey =
      some (before.survey.walk c offset)) ∧
    (after.placements.map (·.directory.offset)).Nodup ∧
    (∀ p ∈ after.placements, p.directory.offset ≠ 0 ∧ p.directory.offset ∈ after.visited ∧
      p.level ≤ 8) ∧
    (∀ s : Survey, ∀ o ∈ s.visited, ∀ any : Context,
      (∀ kind index, s.enter any kind index o = .ok none (s.report (.directoryRepeated o))) ∧
      (∀ index levels kind rest trees,
        Survey.readEach (Survey.readTree any index levels kind) (o :: rest) trees s =
          Survey.readEach (Survey.readTree any index levels kind) rest trees
            (s.report (.directoryRepeated o))) ∧
      (o ≠ 0 → s.walk any o = .ok () (s.report (.directoryRepeated o)))) := by
  intro before after
  have hbefore : before.survey.Guarded := guarded_walks c earlier (Survey.guarded_start budget)
  have hafter : after.Guarded := by
    rw [show after = _ from survey_walk c offset before]
    exact hbefore.walk c offset
  refine ⟨Survey.walkWithin_unvisited c offset before.survey, hafter.distinct, ?_, ?_⟩
  · intro p hp
    obtain ⟨h0, hlevel⟩ := hafter.placed p hp
    exact ⟨h0, hafter.visited p hp, hlevel⟩
  · intro s o ho any
    refine ⟨fun kind index => Survey.enter_repeated any kind index ho, ?_, ?_⟩
    · intro index levels kind rest trees
      exact Survey.readEach_repeated any index levels kind ho rest trees
    · exact fun h0 => Survey.walk_repeated any h0 ho

end Description
end ImageAudit.Tiff
