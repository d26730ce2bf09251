import ImageAudit.Jpeg.Stream
import ImageAudit.Proofs.Jpeg.AlikeReaders

/-! Scan data that are cut off in front of a restart marker. They are decoded as they were up to
where the marker is due, and there it is found to be missing. -/
namespace ImageAudit.Jpeg

variable {stop : Nat} {second : UInt8} {after : List UInt8}

namespace BitReader

variable {r s : BitReader}

/-- A marker that follows is not fetched. -/
theorem nextByte?_append (h : second ≠ 0) (r : BitReader) :
    nextByte? { r with rest := r.rest ++ 0xFF :: second :: after } =
      r.nextByte?.map fun (b, rest, position) =>
        (b, rest ++ 0xFF :: second :: after, position) := by
  obtain ⟨rest, position, pending⟩ := r
  obtain _ | ⟨b, _ | ⟨c, rest⟩⟩ := rest
  · simp [nextByte?, h]
  · by_cases hb : b = 0xFF
    · simp [nextByte?, hb]
    · simp [nextByte?, hb]
  · by_cases hb : b = 0xFF
    · by_cases hc : c = 0
      · simp [nextByte?, hb, hc]
      · simp [nextByte?, hb, hc]
    · simp [nextByte?, hb]

/-- Fetching a byte does not move the end. -/
theorem stop_of_nextByte? {b : UInt8} {rest : List UInt8} {position : Nat}
    (h : r.nextByte? = some (b, rest, position)) :
    position + rest.length = r.position + r.rest.length := by
  obtain ⟨bytes, start, pending⟩ := r
  simp only [nextByte?] at h
  split at h
  · cases h
  split at h
  · cases h
    simp only [List.length_cons]
    omega
  split at h
  · cases h
    simp only [List.length_cons]
    omega
  · cases h

/-- The bytes of `r` end at `stop`, where `s` has `tail` behind them. -/
structure IsCut (stop : Nat) (tail : List UInt8) (r s : BitReader) : Prop where
  eq_append : s = { r with rest := r.rest ++ tail }
  stop_eq : r.position + r.rest.length = stop

/-- No bit is read from a marker, so it makes no difference whether one follows. -/
theorem alike_cut (h : second ≠ 0) : Alike (IsCut stop (0xFF :: second :: after)) := by
  rintro ⟨rest, position, pending⟩ _ ⟨rfl, hstop⟩
  cases pending with
  | cons bit pending => exact ⟨rfl, rfl, hstop⟩
  | nil =>
    have hnext := @nextByte?_append second after h ⟨rest, position, []⟩
    simp only [readBit] at hnext ⊢
    rw [hnext]
    cases hfound : nextByte? ⟨rest, position, []⟩ with
    | none => exact ⟨rfl, rfl, hstop⟩
    | some found =>
      obtain ⟨b, rest', position'⟩ := found
      have hstop' := (stop_of_nextByte? hfound).trans hstop
      dsimp only [Option.map]
      cases bits b with
      | nil => exact ⟨rfl, rfl, hstop⟩
      | cons bit pending => exact ⟨rfl, rfl, hstop'⟩

/-- Where a restart marker is taken it stands there with the expected number. -/
theorem exists_rest_of_restart {expected : Nat} {t : BitReader}
    (h : s.restart expected = (.ok (), t)) :
    ∃ found rest, s.rest = 0xFF :: found :: rest ∧ t = ⟨rest, s.position + 2, []⟩ ∧
      MarkerId.isRestart (0xFF00 + found.toNat) = true ∧ found.toNat - 0xD0 = expected := by
  simp only [restart] at h
  split at h
  · next found rest hrest =>
    split at h
    · next hid =>
      split at h
      · next hexpected => exact ⟨found, rest, hrest, (Prod.mk.inj h).2.symm, hid, hexpected⟩
      · cases (Prod.mk.inj h).1
    · cases (Prod.mk.inj h).1
  · cases (Prod.mk.inj h).1

/-- Where a restart marker is taken, it is taken as well if all from a later marker on is cut off,
and it is missing if it is that marker itself. -/
theorem restart_cut {expected : Nat} {t : BitReader}
    (hcut : IsCut stop (0xFF :: second :: after) r s)
    (hrestart : s.restart expected = (.ok (), t)) :
    (∃ u, r.restart expected = (.ok (), u) ∧ IsCut stop (0xFF :: second :: after) u t) ∨
      (r.restart expected).1 = .error (.missing (second.toNat - 0xD0) stop) := by
  obtain ⟨found, rest', hrest, rfl, hid, hexpected⟩ := exists_rest_of_restart hrestart
  obtain ⟨rest, position, pending⟩ := r
  obtain ⟨rfl, hstop⟩ := hcut
  dsimp only at hrest hstop
  obtain _ | ⟨b, _ | ⟨c, rest⟩⟩ := rest
  · obtain ⟨rfl, _⟩ := List.cons.inj (List.cons.inj hrest).2
    refine .inr ?_
    rw [hexpected, ← hstop]
    rfl
  · -- What is left is half of a marker, and two markers do not stand in each other.
    obtain ⟨hfound, _⟩ := List.cons.inj (List.cons.inj hrest).2
    rw [← hfound] at hid
    cases hid
  · obtain ⟨rfl, htail⟩ := List.cons.inj hrest
    obtain ⟨rfl, rfl⟩ := List.cons.inj htail
    refine .inl ⟨⟨rest, position + 2, []⟩, ?_, rfl, ?_⟩
    · simp only [restart, hid, hexpected, reduceIte]
    · simp only [List.length_cons] at hstop
      dsimp only
      omega

end BitReader

namespace ScanData

/-- The same place in a scan of which nothing but what is left in front of the marker is kept. -/
structure Progress.IsCut (stop : Nat) (tail : List UInt8) (s t : Progress) : Prop where
  unit_eq : t.unit = s.unit
  expected_eq : t.expected = s.expected
  reader : BitReader.IsCut stop tail s.reader t.reader

namespace Plan

variable {p : Plan} {s t t' : Progress}

theorem sync_cut (hcut : s.IsCut stop (0xFF :: second :: after) t) (h : p.sync t = .ok t') :
    (∃ s', p.sync s = .ok s' ∧ s'.IsCut stop (0xFF :: second :: after) t') ∨
      p.sync s = .error (.missingRestart (second.toNat - 0xD0) stop) := by
  rw [sync] at h ⊢
  rw [hcut.unit_eq] at h
  split at h
  · next hdue =>
    split at h
    · next r hrestart =>
      obtain rfl := Except.ok.inj h
      rw [hcut.expected_eq] at hrestart
      rw [if_pos hdue]
      obtain ⟨u, hu, hcut'⟩ | hmissing := BitReader.restart_cut hcut.reader hrestart
      · rw [hu]
        exact .inl ⟨_, rfl, rfl, congrArg (fun n => (n + 1) % 8) hcut.expected_eq, hcut'⟩
      · generalize s.reader.restart s.expected = result at hmissing
        obtain ⟨_, u⟩ := result
        obtain rfl := hmissing
        exact .inr rfl
    · cases h
  · next hdue =>
    obtain rfl := Except.ok.inj h
    rw [if_neg hdue]
    exact .inl ⟨s, rfl, hcut⟩

theorem step_cut (hsecond : second ≠ 0) (hcut : s.IsCut stop (0xFF :: second :: after) t)
    (h : p.step t = .ok t') :
    (∃ s', p.step s = .ok s' ∧ s'.IsCut stop (0xFF :: second :: after) t') ∨
      p.step s = .error (.missingRestart (second.toNat - 0xD0) stop) := by
  rw [step] at h ⊢
  split at h
  · cases h
  · next u hsync =>
    obtain ⟨v, hv, hcut⟩ | hmissing := sync_cut hcut hsync
    · obtain ⟨result, r, r', hfirst, hsecond, hcut'⟩ :=
        (agree_decodeUnit (BitReader.alike_cut hsecond) hcut.reader p.blocks).exists_eq
      rw [hsecond] at h
      rw [hv]
      dsimp only at h ⊢
      rw [hfirst]
      cases result with
      | error e => cases h
      | ok _ =>
        obtain rfl := Except.ok.inj h
        exact .inl ⟨_, rfl, congrArg (· + 1) hcut.unit_eq, hcut.expected_eq, hcut'⟩
    · rw [hmissing]
      exact .inr rfl

/-- Units that are decoded are decoded as well without the bytes from some restart marker on, or
that marker is missing. -/
theorem run_cut (hsecond : second ≠ 0) {units : Nat}
    (hcut : s.IsCut stop (0xFF :: second :: after) t) (h : p.run units t = .ok t') :
    (∃ s', p.run units s = .ok s') ∨
      p.run units s = .error (.missingRestart (second.toNat - 0xD0) stop) := by
  induction units generalizing s t with
  | zero => exact .inl ⟨s, rfl⟩
  | succ units ih =>
    rw [run] at h ⊢
    split at h
    · cases h
    · next u hstep =>
      obtain ⟨v, hv, hcut⟩ | hmissing := step_cut hsecond hcut hstep
      · rw [hv]
        exact ih hcut h
      · rw [hmissing]
        exact .inr rfl

end Plan

/-- Of scan data without a finding nothing is missed if all from a restart marker on is cut off, or
it is that marker. -/
theorem check_cut {f : Frame} {tables : Huffman.Tables} {interval offset number : Nat}
    {data : ByteArray} {before : List UInt8} (hsecond : second ≠ 0)
    (hdata : data.data.toList = before ++ 0xFF :: second :: after)
    (h : check f tables interval data offset number = []) :
    check f tables interval ⟨before.toArray⟩ offset number = [] ∨
      check f tables interval ⟨before.toArray⟩ offset number =
        [.missingRestart (second.toNat - 0xD0) (offset + before.length)] := by
  have hcut : Progress.IsCut (offset + before.length) (0xFF :: second :: after)
      ⟨0, 0, .ofBytes ⟨before.toArray⟩ offset⟩ ⟨0, 0, .ofBytes data offset⟩ := by
    refine ⟨rfl, rfl, ?_, rfl⟩
    rw [BitReader.ofBytes, hdata]
    rfl
  simp only [check] at h ⊢
  split at h
  · exact .inl rfl
  · split at h
    · next hmissing =>
      rw [if_pos hmissing]
      exact .inl h
    · next hmissing =>
      rw [if_neg hmissing]
      split at h
      · exact .inl rfl
      · split at h
        · next t hrun =>
          obtain ⟨s, hs⟩ | hs := Plan.run_cut hsecond hcut hrun
          · rw [hs]
            exact .inl rfl
          · rw [hs]
            exact .inr rfl
        · cases h

end ScanData

theorem Stream.checkScanData_cut {s : Stream} {data : ByteArray} {offset : Nat}
    {before : List UInt8} (hsecond : second ≠ 0)
    (hdata : data.data.toList = before ++ 0xFF :: second :: after) (hs : s.findings = [])
    (h : (s.checkScanData data offset).findings = []) :
    (s.checkScanData ⟨before.toArray⟩ offset).findings = [] ∨
      (s.checkScanData ⟨before.toArray⟩ offset).findings =
        [.missingRestart (second.toNat - 0xD0) (offset + before.length)] := by
  rw [checkScanData] at h ⊢
  split at h
  · split at h
    · next hdecoded =>
      rw [if_pos hdecoded]
      simp only [reportAll, hs, List.nil_append] at h ⊢
      exact ScanData.check_cut hsecond hdata h
    · next hdecoded =>
      rw [if_neg hdecoded]
      exact .inl h
  · exact .inl h

end ImageAudit.Jpeg
