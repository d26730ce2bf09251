import ImageAudit.Tiff.Survey

/-! Offsets that were entered stay entered. A directory that is read in full starts inside the
file at an offset that was not entered before, so each one uses up an offset of the file. -/
namespace ImageAudit.Tiff

namespace Directory

theorem le_of_readPart {source : Source} {offset start count : Nat} {bytes : ByteArray}
    (h : readPart source offset start count = .ok bytes) : start + count ≤ source.length := by
  unfold readPart at h
  split at h
  · exact nomatch h
  · next hs => exact (Source.hasSection_iff.1 (by simpa using hs)).2

theorem countSize_pos (big : Bool) : 0 < countSize big := by cases big <;> decide

theorem lt_of_readBytes {e : Encoding} {source : Source} {offset : Nat} {body : Nat × Segment}
    (h : readBytes e source offset = .ok body) : offset < source.length := by
  unfold readBytes at h
  split at h
  · exact nomatch h
  · next hp =>
    have := le_of_readPart hp
    have := countSize_pos e.big
    omega

/-- A directory that is read in full starts inside the file. -/
theorem lt_of_read {c : Context} {kind : DirectoryKind} {index offset : Nat} {budget : Budget}
    {d : Directory} (h : (read c kind index offset budget).result = .ok (some d)) :
    offset < c.source.length := by
  simp only [read] at h
  split at h
  · exact nomatch h
  · exact nomatch h
  · next hb => exact lt_of_readBytes hb

end Directory

namespace Survey

def Step.after {α : Type} : Step α → Survey
  | .ok _ s => s
  | .error _ s => s

def Remembers {α : Type} (s : Survey) (step : Step α) : Prop := s.visited ⊆ step.after.visited

theorem remembers_enter (c : Context) (kind : DirectoryKind) (index offset : Nat) (s : Survey) :
    s.Remembers (s.enter c kind index offset) := by
  unfold enter
  split
  · exact List.Subset.refl _
  · simp only
    split <;> exact List.subset_cons_self _ _

/-- A directory is entered at an offset of the file that was not entered before. -/
theorem enter_eq_some {c : Context} {kind : DirectoryKind} {index offset : Nat} {s t : Survey}
    {d : Directory} (h : s.enter c kind index offset = .ok (some d) t) :
    offset < c.source.length ∧ offset ∉ s.visited ∧ t.visited = offset :: s.visited := by
  unfold enter at h
  split at h
  · simp at h
  · next hv =>
    simp only at h
    split at h
    · exact nomatch h
    · next hr =>
      injection h with hd ht
      subst hd ht
      exact ⟨Directory.lt_of_read hr, by simpa using hv, rfl⟩

theorem remembers_readEach {read : Nat → Survey → Step (Option DirectoryTree)}
    (hread : ∀ (offset : Nat) (s : Survey), s.Remembers (read offset s)) (offsets : List Nat)
    (trees : Array DirectoryTree) (s : Survey) : s.Remembers (readEach read offsets trees s) := by
  induction offsets generalizing trees s with
  | nil => exact List.Subset.refl _
  | cons offset rest ih =>
    have hstep := hread offset s
    unfold readEach
    split
    · next h => rwa [h] at hstep
    · next h =>
      rw [h] at hstep
      exact List.Subset.trans hstep (ih _ _)
    · next h =>
      rw [h] at hstep
      exact List.Subset.trans hstep (ih _ _)

theorem remembers_readTree (c : Context) (index levels : Nat) (kind : DirectoryKind)
    (offset : Nat) (s : Survey) : s.Remembers (readTree c index levels kind offset s) := by
  induction levels generalizing kind offset s with
  | zero =>
    have henter := remembers_enter c kind index offset s
    unfold readTree
    split
    · next h => rwa [h] at henter
    · next h => rwa [h] at henter
    · next d t h =>
      rw [h] at henter
      change s.visited ⊆ Survey.visited (if d.hasChildren then _ else _)
      split <;> exact henter
  | succ levels ih =>
    have henter := remembers_enter c kind index offset s
    unfold readTree
    split
    · next h => rwa [h] at henter
    · next h => rwa [h] at henter
    · next d t h =>
      rw [h] at henter
      have hsubs := remembers_readEach (ih .sub) d.subOffsets #[] t
      split
      · next hs =>
        rw [hs] at hsubs
        exact List.Subset.trans henter hsubs
      · next u hs =>
        rw [hs] at hsubs
        have hgps := remembers_readEach (ih .gps) d.gpsOffset?.toList #[] u
        have hboth := List.Subset.trans henter (List.Subset.trans hsubs hgps)
        split <;> (next hg => rw [hg] at hboth; exact hboth)

/-- A tree is read from an offset of the file that was not entered before and now is. -/
theorem readTree_eq_some {c : Context} {index levels : Nat} {kind : DirectoryKind} {offset : Nat}
    {s t : Survey} {tree : DirectoryTree}
    (h : readTree c index levels kind offset s = .ok (some tree) t) :
    offset < c.source.length ∧ offset ∉ s.visited ∧ offset ∈ t.visited := by
  cases levels with
  | zero =>
    unfold readTree at h
    split at h
    · exact nomatch h
    · exact nomatch h
    · next he =>
      obtain ⟨hlt, hnew, hvisited⟩ := enter_eq_some he
      injection h with _ ht
      subst ht
      refine ⟨hlt, hnew, ?_⟩
      split <;> simp [report, hvisited]
  | succ levels =>
    unfold readTree at h
    split at h
    · exact nomatch h
    · exact nomatch h
    · next d u he =>
      obtain ⟨hlt, hnew, hvisited⟩ := enter_eq_some he
      have hsubs := remembers_readEach (remembers_readTree c index levels .sub) d.subOffsets #[] u
      split at h
      · exact nomatch h
      · next v hs =>
        rw [hs] at hsubs
        have hgps :=
          remembers_readEach (remembers_readTree c index levels .gps) d.gpsOffset?.toList #[] v
        split at h
        · exact nomatch h
        · next hg =>
          injection h with _ ht
          subst ht
          rw [hg] at hgps
          exact ⟨hlt, hnew, hgps (hsubs (by simp [hvisited]))⟩

/-- Entering another offset of the file leaves fewer of them. -/
theorem unvisited_lt {s t : Survey} {offset length : Nat} (hkeep : s.visited ⊆ t.visited)
    (hlt : offset < length) (hnew : offset ∉ s.visited) (hin : offset ∈ t.visited) :
    t.unvisited length < s.unvisited length := by
  unfold unvisited
  induction length with
  | zero => omega
  | succ length ih =>
    rw [List.range_succ, List.countP_append, List.countP_append]
    have hmono : ∀ l : List Nat, l.countP (fun o => !t.visited.contains o) ≤
        l.countP (fun o => !s.visited.contains o) := fun l =>
      List.countP_mono_left fun o _ ho => by
        have : o ∉ t.visited := by simpa using ho
        simpa using fun hs => this (hkeep hs)
    by_cases h : offset = length
    · subst h
      have := hmono (List.range offset)
      simp only [List.countP_singleton, List.contains_iff_mem.2 hin,
        Bool.eq_false_iff.2 fun hs => hnew (List.contains_iff_mem.1 hs)]
      simp only [Bool.not_true, Bool.not_false, reduceIte, Bool.false_eq_true]
      omega
    · have := ih (by omega)
      have := hmono [length]
      omega

/-- Each main directory leaves fewer offsets to enter. -/
theorem unvisited_readMain {c : Context} {offset : Nat} {s t : Survey} {tree : DirectoryTree}
    (h : s.readMain c offset = .ok (some tree) t) :
    (t.addMain tree).unvisited c.source.length < s.unvisited c.source.length := by
  have hkeep := remembers_readTree c s.directories.size maxDepth .main offset s
  rw [show readTree c s.directories.size maxDepth .main offset s = .ok (some tree) t from h]
    at hkeep
  obtain ⟨hlt, hnew, hin⟩ := readTree_eq_some h
  exact unvisited_lt hkeep hlt hnew hin

end Survey
end ImageAudit.Tiff
