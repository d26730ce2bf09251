import ImageAudit.Proofs.Checked.Tiff.DirectoryReader
import ImageAudit.Proofs.Tiff.Derivation

/-! Following the directories of a file with operations that can go wrong. Sub-directories are
followed while the level allows it, and the chain of main directories as long as turns are left. -/
namespace ImageAudit.Tiff.Survey

open Checked

def checkedEnter (narrow : Nat → Checked Nat) (c : InputContext) (kind : DirectoryKind)
    (index offset : Nat) (s : Survey) : Checked (Step (Option Directory)) :=
  if s.visited.contains offset then pure (.ok none (s.report (.directoryRepeated offset)))
  else do
    let reading ← Directory.checkedRead narrow c kind index offset s.budget
    match reading.result with
    | .error cause => pure (.error cause (s.takeReading offset reading))
    | .ok d => pure (.ok d (s.takeReading offset reading))

def checkedReadEach (read : Nat → Survey → Checked (Step (Option DirectoryTree))) :
    (offsets : List Nat) → (trees : Array DirectoryTree) → Survey →
      Checked (Step (Array DirectoryTree))
  | [], trees, s => pure (.ok trees s)
  | offset :: rest, trees, s => do
    match ← read offset s with
    | .error cause s => pure (.error cause s)
    | .ok none s => checkedReadEach read rest trees s
    | .ok (some tree) s => checkedReadEach read rest (trees.push tree) s

/-- Reads the directory at `offset` of level `depth` and those below it. Every turn is one level
down. -/
def checkedReadTree (narrow : Nat → Checked Nat) (c : InputContext) (index : Nat) :
    (turns depth : Nat) → DirectoryKind → (offset : Nat) → Survey →
      Checked (Step (Option DirectoryTree))
  | 0, _, _, _, _ => throw .endless
  | turns + 1, depth, kind, offset, s => do
    match ← s.checkedEnter narrow c kind index offset with
    | .error cause s => pure (.error cause s)
    | .ok none s => pure (.ok none s)
    | .ok (some d) s =>
      if depth < maxDepth then do
        let below ← add maxWord depth 1
        let subOffsets ← d.checkedSubOffsets
        match ← checkedReadEach (checkedReadTree narrow c index turns below .sub) subOffsets #[] s
        with
        | .error cause s => pure (.error cause s)
        | .ok subs s => do
          let gpsOffset ← d.checkedGpsOffset
          match ← checkedReadEach (checkedReadTree narrow c index turns below .gps)
            gpsOffset.toList #[] s with
          | .error cause s => pure (.error cause s)
          | .ok gps s => pure (.ok (some (.node d subs.toList gps.toList)) s)
      else
        pure (.ok (some (.node d [] []))
          (if d.hasChildren then s.report (.nestingTooDeep offset maxDepth) else s))

def checkedReadMain (narrow : Nat → Checked Nat) (c : InputContext) (offset : Nat) (s : Survey) :
    Checked (Step (Option DirectoryTree)) :=
  checkedReadTree narrow c s.directories.size (maxDepth + 1) 0 .main offset s

/-- Follows the chain from `offset`, one main directory a turn. -/
def checkedWalk (narrow : Nat → Checked Nat) (c : InputContext) :
    (turns offset : Nat) → Survey → Checked (Step Unit)
  | 0, _, _ => throw .endless
  | turns + 1, offset, s =>
    if offset = 0 then pure (.ok () s)
    else do
      match ← s.checkedReadMain narrow c offset with
      | .error cause t => pure (.error cause t)
      | .ok none t => pure (.ok () t)
      | .ok (some tree) t => checkedWalk narrow c turns tree.directory.nextOffset (t.addMain tree)

variable {c : InputContext}

theorem checkedEnter_eq (h : c.input.Valid) (kind : DirectoryKind) (index offset : Nat)
    (s : Survey) :
    s.checkedEnter (cut maxHalf) c kind index offset =
      pure (s.enter c.context kind index offset) := by
  unfold checkedEnter enter
  split
  · rfl
  · rw [Directory.checkedRead_eq h, pure_bind]
    dsimp only
    generalize Directory.read c.context kind index offset s.budget = reading
    cases reading.result <;> rfl

theorem checkedReadEach_eq {checked : Nat → Survey → Checked (Step (Option DirectoryTree))}
    {read : Nat → Survey → Step (Option DirectoryTree)}
    (h : ∀ offset s, checked offset s = pure (read offset s)) (offsets : List Nat)
    (trees : Array DirectoryTree) (s : Survey) :
    checkedReadEach checked offsets trees s = pure (readEach read offsets trees s) := by
  induction offsets generalizing trees s with
  | nil => rfl
  | cons offset rest ih =>
    rw [checkedReadEach, h, pure_bind, readEach]
    rcases read offset s with ⟨found, t⟩ | ⟨cause, t⟩
    · cases found with
      | none => exact ih trees t
      | some tree => exact ih (trees.push tree) t
    · rfl

/-- One turn more than there are levels left is enough for any tree. -/
theorem checkedReadTree_eq (h : c.input.Valid) (index : Nat) {levels depth : Nat}
    (hlevels : depth + levels = maxDepth) (kind : DirectoryKind) (offset : Nat) (s : Survey) :
    checkedReadTree (cut maxHalf) c index (levels + 1) depth kind offset s =
      pure (readTree c.context index levels kind offset s) := by
  induction levels generalizing depth kind offset s with
  | zero =>
    have hdeepest : ¬ depth < maxDepth := by omega
    rw [checkedReadTree, checkedEnter_eq h, pure_bind, readTree]
    rcases s.enter c.context kind index offset with ⟨found, t⟩ | ⟨cause, t⟩
    · cases found with
      | none => rfl
      | some d => exact if_neg hdeepest
    · rfl
  | succ levels ih =>
    have hdepth : depth < maxDepth := by omega
    have hword : maxDepth ≤ maxWord := by decide
    have hsubs := checkedReadEach_eq (ih (by omega : depth + 1 + levels = maxDepth) .sub)
    have hgps := checkedReadEach_eq (ih (by omega : depth + 1 + levels = maxDepth) .gps)
    rw [checkedReadTree, checkedEnter_eq h, pure_bind, readTree]
    rcases s.enter c.context kind index offset with ⟨found, t⟩ | ⟨cause, t⟩
    · cases found with
      | none => rfl
      | some d =>
        dsimp only
        rw [if_pos hdepth, add_eq (by omega), pure_bind, Directory.checkedSubOffsets_eq,
          pure_bind, hsubs, pure_bind]
        rcases readEach (readTree c.context index levels .sub) d.subOffsets #[] t with
          ⟨subs, t⟩ | ⟨cause, t⟩
        · dsimp only
          rw [Directory.checkedGpsOffset_eq, pure_bind, hgps, pure_bind]
          rcases readEach (readTree c.context index levels .gps) d.gpsOffset?.toList #[] t with
            ⟨gps, t⟩ | ⟨cause, t⟩ <;> rfl
        · rfl
    · rfl

theorem checkedReadMain_eq (h : c.input.Valid) (offset : Nat) (s : Survey) :
    s.checkedReadMain (cut maxHalf) c offset = pure (s.readMain c.context offset) :=
  checkedReadTree_eq h _ (Nat.zero_add _) .main offset s

/-- One turn more than there are unvisited offsets is enough for any chain. -/
theorem checkedWalk_eq (h : c.input.Valid) {turns offset : Nat} {s : Survey}
    (hturns : s.unvisited c.input.source.length < turns) :
    s.checkedWalk (cut maxHalf) c turns offset = pure (s.walk c.context offset) := by
  induction turns generalizing offset s with
  | zero => omega
  | succ turns ih =>
    rw [checkedWalk]
    by_cases h0 : offset = 0
    · rw [if_pos h0, h0, walk_zero]
    · rw [if_neg h0, checkedReadMain_eq h, pure_bind]
      cases hread : s.readMain c.context offset with
      | error cause t => rw [walk_fail h0 hread]
      | ok found t =>
        cases found with
        | none => rw [walk_halt h0 hread]
        | some tree =>
          have hless := unvisited_readMain hread
          rw [walk_next h0 hread]
          exact ih (Nat.lt_of_lt_of_le hless (Nat.le_of_lt_succ hturns))

end ImageAudit.Tiff.Survey
