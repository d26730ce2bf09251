import ImageAudit.Proofs.Jpeg.MarkerLoop
import ImageAudit.Proofs.Recognition

/-! Where recorded markers come from. No step takes a marker away, and each one that a run adds was
read in a step of its own, behind all that had been recorded by then. -/
namespace ImageAudit.Jpeg.Scanner

variable {source : Source} {content : List UInt8} {s t : Scanner} {m : Marker}

theorem markers_leave (source : Source) (stream : Stream) (m : Marker) (next : Nat) :
    (leave source stream m next).stream.markers = stream.markers.push m := by
  simp only [leave]
  split
  · rfl
  split
  · split <;> rfl
  · rfl

theorem Reaches.offset_le (h : Reaches source s t) : s.offset ≤ t.offset := by
  induction h with
  | refl => exact Nat.le_refl _
  | next hstep _ ih =>
    have := (offset_of_step hstep).2
    omega

theorem Reaches.run_eq (h : Reaches source s t) : run source s = run source t := by
  induction h with
  | refl => rfl
  | next hstep _ ih => exact (run_advance hstep).trans ih

/-- A step records the marker that it reads, or none. -/
theorem markers_step (source : Source) (s : Scanner) :
    (step source s).stream.markers = s.stream.markers ∨
      ∃ m next index, Marker.readAt source s.offset s.number = .ok (.marker m next) ∧
        (step source s).stream.markers = s.stream.markers.push (m.moveTo index) := by
  rw [step]
  split
  · exact .inl rfl
  · exact .inl rfl
  · next m next hread =>
    obtain ⟨⟨index, hmarker⟩, hmarkers, _⟩ := s.stream.takes_take m
    have hpush : ∀ stream stop, stream.markers = s.stream.markers →
        (leave source stream (m.moveTo index) stop).stream.markers =
          s.stream.markers.push (m.moveTo index) := by
      intro stream stop hsame
      rw [markers_leave, hsame]
    rw [enter]
    generalize s.stream.take m = taken at hmarker hmarkers ⊢
    obtain ⟨stream, m'⟩ := taken
    obtain rfl : m' = m.moveTo index := hmarker
    dsimp only
    split
    · rw [takeScanData]
      cases EntropyData.read source next with
      | error cause => exact .inl hmarkers
      | ok data =>
        exact .inr ⟨m, next, index, hread,
          hpush _ _ ((checkScanData_keeps stream data next).1.trans hmarkers)⟩
    · exact .inr ⟨m, next, index, hread, hpush _ _ hmarkers⟩

theorem mem_markers_of_step (hm : m ∈ s.stream.markers) : m ∈ (step source s).stream.markers := by
  rcases markers_step source s with hsame | ⟨m', next, index, _, hpush⟩
  · exact hsame ▸ hm
  · exact hpush ▸ Array.mem_push_of_mem _ hm

theorem exists_readAt_of_mem (hm : m ∈ (step source s).stream.markers)
    (hnew : m ∉ s.stream.markers) :
    ∃ m' next index, Marker.readAt source s.offset s.number = .ok (.marker m' next) ∧
      m = m'.moveTo index := by
  rcases markers_step source s with hsame | ⟨m', next, index, hread, hpush⟩
  · exact absurd (hsame ▸ hm) hnew
  · rw [hpush] at hm
    obtain rfl := (Array.mem_push.mp hm).resolve_left hnew
    exact ⟨m', next, index, hread, rfl⟩

theorem mem_markers_of_run (hm : m ∈ s.stream.markers) : m ∈ (run source s).markers := by
  fun_induction run source s with
  | case1 s stream hstep =>
    have hstream := @mem_markers_of_step source s m hm
    rwa [hstep] at hstream
  | case2 s t hstep _ ih =>
    have hstream := @mem_markers_of_step source s m hm
    rw [hstep] at hstream
    exact ih hstream

/-- A marker that a run records is read in one of its steps. -/
theorem exists_reaches_of_mem (hm : m ∈ (run source s).markers) (hnew : m ∉ s.stream.markers) :
    ∃ t m' next index, Reaches source s t ∧
      Marker.readAt source t.offset t.number = .ok (.marker m' next) ∧ m = m'.moveTo index := by
  fun_induction run source s with
  | case1 s stream hstep =>
    have hread := @exists_readAt_of_mem source s m
    rw [hstep] at hread
    obtain ⟨m', next, index, hfound⟩ := hread hm hnew
    exact ⟨s, m', next, index, .refl s, hfound⟩
  | case2 s t hstep _ ih =>
    have hread := @exists_readAt_of_mem source s m
    rw [hstep] at hread
    by_cases hnext : m ∈ t.stream.markers
    · obtain ⟨m', next, index, hfound⟩ := hread hnext hnew
      exact ⟨s, m', next, index, .refl s, hfound⟩
    · obtain ⟨u, m', next, index, hreach, hfound⟩ := ih hm hnext
      exact ⟨u, m', next, index, .next hstep hreach, hfound⟩

/-- What has been recorded stands in front of what is read next. -/
theorem Reaches.lt_offset (h : source.Holds content) (hreach : Reaches source s t)
    (hs : ∀ m ∈ s.stream.markers, m.offset < s.offset) :
    ∀ m ∈ t.stream.markers, m.offset < t.offset := by
  induction hreach with
  | refl s => exact hs
  | @next s u t hstep _ ih =>
    have hlt := (offset_of_step hstep).2
    refine ih fun m hm => ?_
    by_cases hold : m ∈ s.stream.markers
    · exact Nat.lt_trans (hs m hold) hlt
    · have hread := @exists_readAt_of_mem source s m
      rw [hstep] at hread
      obtain ⟨m', next, index, hfound, rfl⟩ := hread hm hold
      have hoffset : m'.offset = s.offset := ((Marker.readAt_marker_iff h).mp hfound).2.2.2.1
      exact hoffset ▸ hlt

end ImageAudit.Jpeg.Scanner
