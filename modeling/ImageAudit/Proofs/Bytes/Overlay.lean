import ImageAudit.Proofs.Bytes.Content

/-! Regions laid over a background. Where no two of them meet, each one is found whole, and what no
region covers shows the background. -/
namespace ImageAudit

structure Region where
  offset : Nat
  bytes : List UInt8

namespace Region

def stop (r : Region) : Nat := r.offset + r.bytes.length

def Avoids (r : Region) (start stop : Nat) : Prop := r.stop ≤ start ∨ stop ≤ r.offset

def Apart (r s : Region) : Prop := r.Avoids s.offset s.stop

instance (r : Region) (start stop : Nat) : Decidable (r.Avoids start stop) :=
  inferInstanceAs (Decidable (_ ∨ _))

instance (r s : Region) : Decidable (r.Apart s) :=
  inferInstanceAs (Decidable (r.Avoids s.offset s.stop))

def put (r : Region) (content : List UInt8) : List UInt8 :=
  content.take r.offset ++ (r.bytes ++ content.drop r.stop)

variable {r : Region} {content : List UInt8} {start count : Nat}

theorem length_put (h : r.stop ≤ content.length) : (r.put content).length = content.length := by
  rw [stop] at h
  simp only [put, stop, List.length_append, List.length_take, List.length_drop]
  omega

theorem standsAt_put (h : r.stop ≤ content.length) :
    StandsAt r.bytes (r.put content) r.offset := by
  have hlength : (content.take r.offset).length = r.offset := by
    rw [stop] at h
    rw [List.length_take]
    omega
  refine ⟨?_, content.drop r.stop, ?_⟩
  · rw [length_put h]
    rw [stop] at h
    omega
  · rw [put]
    exact (List.drop_left' hlength).symm

/-- Bytes that the region does not meet stay as they are. -/
theorem bytesAt_put (h : r.stop ≤ content.length) (havoids : r.Avoids start (start + count)) :
    bytesAt (r.put content) start count = bytesAt content start count := by
  have hoffset : r.offset ≤ r.stop := Nat.le_add_right _ _
  have hlength : (content.take r.offset).length = r.offset := by
    rw [List.length_take]
    omega
  rw [bytesAt, bytesAt, put]
  rcases havoids with hbefore | hbehind
  · have hdrop : (content.take r.offset ++ (r.bytes ++ content.drop r.stop)).drop start =
        content.drop start := by
      have hstop : r.stop = r.offset + r.bytes.length := rfl
      rw [List.drop_append, hlength, List.drop_eq_nil_of_le (by omega), List.nil_append,
        List.drop_append, List.drop_eq_nil_of_le (by omega), List.nil_append, List.drop_drop]
      congr 1
      omega
    rw [hdrop]
  · have htake : ((content.take r.offset).drop start).length = r.offset - start := by
      rw [List.length_drop, hlength]
    rw [List.drop_append_of_le_length (by omega), List.take_append_of_le_length (by omega),
      List.drop_take, List.take_take, Nat.min_eq_left (by omega)]

end Region

def overlay (base : List UInt8) : List Region → List UInt8
  | [] => base
  | r :: rest => r.put (overlay base rest)

variable {base : List UInt8} {regions : List Region} {r : Region} {start count : Nat}

theorem length_overlay (h : ∀ r ∈ regions, r.stop ≤ base.length) :
    (overlay base regions).length = base.length := by
  induction regions with
  | nil => rfl
  | cons r rest ih =>
    rw [List.forall_mem_cons] at h
    have hrest := ih h.2
    rw [overlay, Region.length_put (hrest ▸ h.1), hrest]

/-- What no region meets shows the background. -/
theorem bytesAt_overlay (h : ∀ r ∈ regions, r.stop ≤ base.length)
    (havoids : ∀ r ∈ regions, r.Avoids start (start + count)) :
    bytesAt (overlay base regions) start count = bytesAt base start count := by
  induction regions with
  | nil => rfl
  | cons r rest ih =>
    rw [List.forall_mem_cons] at h havoids
    have hlength := length_overlay h.2
    rw [overlay, Region.bytesAt_put (hlength ▸ h.1) havoids.1, ih h.2 havoids.2]

/-- Regions that do not meet one another are all found whole. -/
theorem standsAt_overlay (h : ∀ r ∈ regions, r.stop ≤ base.length)
    (hapart : regions.Pairwise Region.Apart) (hr : r ∈ regions) :
    StandsAt r.bytes (overlay base regions) r.offset := by
  induction regions with
  | nil => cases hr
  | cons s rest ih =>
    rw [List.forall_mem_cons] at h
    rw [List.pairwise_cons] at hapart
    have hlength := length_overlay h.2
    cases hr with
    | head => exact Region.standsAt_put (hlength ▸ h.1)
    | tail _ hr =>
      have hle : r.offset + r.bytes.length ≤ (overlay base rest).length := hlength ▸ h.2 r hr
      have hbytes := Region.bytesAt_put (hlength ▸ h.1) (hapart.1 r hr)
      rw [(ih h.2 hapart.2 hr).bytesAt_eq] at hbytes
      have hput : r.offset + r.bytes.length ≤ (s.put (overlay base rest)).length := by
        rwa [Region.length_put (hlength ▸ h.1)]
      have hstands := StandsAt.of_bytesAt hput
      rwa [hbytes] at hstands
end ImageAudit
