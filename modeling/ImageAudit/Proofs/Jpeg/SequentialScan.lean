import ImageAudit.Proofs.Jpeg.ScanGrammar

/-! Data of sequential scans. Units are coded in intervals, each in bytes of its own and with a
restart marker behind all but the last, and exactly such data are decoded without a finding. -/
namespace ImageAudit.Jpeg.ScanData

/-- The stuffed form of the fewest bytes that begin with the bits of `units` units. -/
inductive IntervalBytes (blocks : List Coding) (units : Nat) : List UInt8 → Prop where
  | packed {bits padding : List Bool} {bytes : List UInt8} (hbits : UnitsBits blocks units bits)
      (hbytes : bytes.flatMap BitReader.bits = bits ++ padding) (hpadding : padding.length < 8) :
      IntervalBytes blocks units (stuff bytes)

/-- Intervals of the given numbers of units one after another. Behind interval `number` and before
the next one stands the restart marker that is counted modulo eight. -/
inductive IntervalsBytes (blocks : List Coding) :
    (number : Nat) → (sizes : List Nat) → List UInt8 → Prop where
  | last {number units : Nat} {bytes : List UInt8} (hbytes : IntervalBytes blocks units bytes) :
      IntervalsBytes blocks number [units] bytes
  | restart {number units : Nat} {sizes : List Nat} {bytes more : List UInt8}
      (hbytes : IntervalBytes blocks units bytes)
      (hmore : IntervalsBytes blocks (number + 1) sizes more) :
      IntervalsBytes blocks number (units :: sizes)
        (bytes ++ 0xFF :: UInt8.ofNat (0xD0 + number % 8) :: more)

/-- The units of interval `i`: as many as the restart interval asks for, if so many are left. -/
def intervalSize (units interval i : Nat) : Nat := min interval (units - i * interval)

/-- The units of each interval. Without restart markers a single one holds them all. -/
def intervalSizes (units interval : Nat) : List Nat :=
  if interval = 0 then [units]
  else (List.range (ceilDiv units interval)).map (intervalSize units interval)

theorem intervalSize_eq {units interval i : Nat} (h : (i + 1) * interval < units) :
    intervalSize units interval i = interval := by
  have hsucc := Nat.add_one_mul i interval
  rw [intervalSize]
  omega

/-- An interval has units as long as there are any. -/
theorem intervalSize_pos {units interval i : Nat} (hinterval : 0 < interval)
    (h : i * interval < units) : 0 < intervalSize units interval i := by
  rw [intervalSize]
  omega

/-- The units from one interval on are those of it and those behind it. -/
theorem intervalSize_add (units interval i : Nat) :
    intervalSize units interval i + (units - (i + 1) * interval) = units - i * interval := by
  have hsucc := Nat.add_one_mul i interval
  rw [intervalSize]
  omega

/-- From a reader with no pending bits, an interval is taken together with its padding. -/
private theorem exists_takes_iff {blocks : List Coding} {units : Nat} {r : BitReader}
    (h : r.pending = []) {rest : List UInt8} :
    (∃ bits t, UnitsBits blocks units bits ∧ BitReader.Takes bits r t ∧ t.rest = rest) ↔
      ∃ bytes, IntervalBytes blocks units bytes ∧ r.rest = bytes ++ rest := by
  constructor
  · intro hcoded
    rcases hcoded with ⟨bits, t, hbits, htakes, rfl⟩
    obtain ⟨bytes, hrest, hpending, _, hlast⟩ := BitReader.takes_iff.mp htakes
    rw [h, List.nil_append] at hpending
    refine ⟨stuff bytes, .packed hbits hpending ?_, hrest⟩
    cases bytes with
    | nil =>
      rw [(List.append_eq_nil_iff.mp hpending.symm).2]
      exact Nat.zero_lt_succ 7
    | cons => exact hlast (List.cons_ne_nil _ _)
  · intro hcoded
    rcases hcoded with ⟨_, @⟨bits, padding, bytes, hbits, hbytes, hpadding⟩, hrest⟩
    refine ⟨bits, ⟨rest, r.position + (stuff bytes).length, padding⟩, hbits, ?_, rfl⟩
    have hspans : r.pending ++ bytes.flatMap BitReader.bits = bits ++ padding := by
      rw [h, List.nil_append, hbytes]
    exact BitReader.takes_iff.mpr ⟨bytes, hrest, hspans, rfl, fun _ => hpadding⟩

/-- The last interval leaves any bytes behind it. -/
private theorem exists_takes_last_iff {blocks : List Coding} {number units : Nat} {r : BitReader}
    (h : r.pending = []) :
    (∃ bits t, UnitsBits blocks units bits ∧ BitReader.Takes bits r t) ↔
      ∃ bytes rest, IntervalsBytes blocks number [units] bytes ∧ r.rest = bytes ++ rest := by
  constructor
  · intro hcoded
    rcases hcoded with ⟨bits, t, hbits, htakes⟩
    obtain ⟨bytes, hbytes, hrest⟩ := (exists_takes_iff h).mp ⟨bits, t, hbits, htakes, rfl⟩
    exact ⟨bytes, t.rest, .last hbytes, hrest⟩
  · intro hcoded
    rcases hcoded with ⟨bytes, rest, hbytes, hrest⟩
    cases hbytes with
    | last hbytes =>
      obtain ⟨bits, t, hbits, htakes, _⟩ := (exists_takes_iff h).mpr ⟨bytes, hbytes, hrest⟩
      exact ⟨bits, t, hbits, htakes⟩
    | restart _ hmore => cases hmore

private theorem unitsBits_one {blocks : List Coding} {bits : List Bool} :
    UnitsBits blocks 1 bits ↔ UnitBits blocks bits := by
  constructor
  · rintro (_ | ⟨hunit, ⟨⟩⟩)
    rw [List.append_nil]
    exact hunit
  · intro hunit
    rw [← List.append_nil bits]
    exact .succ hunit .zero

namespace Plan

variable {p : Plan}

theorem sync_of_not_restartsAt {s : Progress} (h : p.restartsAt s.unit = false) :
    p.sync s = .ok s := by
  rw [sync, h]
  rfl

theorem sync_unit {s u : Progress} (h : p.sync s = .ok u) : u.unit = s.unit := by
  rw [sync] at h
  split at h
  · split at h
    · rw [← Except.ok.inj h]
    · cases h
  · rw [← Except.ok.inj h]

/-- Where a restart marker is due, it has to follow, and a new byte begins behind it. -/
theorem sync_iff {unit expected : Nat} (hdue : p.restartsAt unit = true) (h : expected < 8)
    {r : BitReader} {u : Progress} :
    p.sync ⟨unit, expected, r⟩ = .ok u ↔
      ∃ rest, r.rest = 0xFF :: UInt8.ofNat (0xD0 + expected) :: rest ∧
        u = ⟨unit, (expected + 1) % 8, ⟨rest, r.position + 2, []⟩⟩ := by
  rw [sync]
  rw [if_pos hdue]
  constructor
  · intro hsync
    split at hsync
    · next r hrestart =>
      obtain ⟨rest, hrest, rfl⟩ := (BitReader.restart_iff h).mp hrestart
      exact ⟨rest, hrest, (Except.ok.inj hsync).symm⟩
    · cases hsync
  · intro hcoded
    rcases hcoded with ⟨rest, hrest, rfl⟩
    rw [(BitReader.restart_iff h).mpr ⟨rest, hrest, rfl⟩]

theorem step_iff (h : ∀ c ∈ p.blocks, c.Built) {s v : Progress} :
    p.step s = .ok v ↔ ∃ u bits t, p.sync s = .ok u ∧ UnitBits p.blocks bits ∧
      BitReader.Takes bits u.reader t ∧ v = ⟨u.unit + 1, u.expected, t⟩ := by
  rw [step]
  constructor
  · intro hstep
    split at hstep
    · cases hstep
    · next u hsync =>
      split at hstep
      · next t hunit =>
        obtain ⟨bits, hbits, htakes⟩ := (decodeUnit_iff h).mp hunit
        exact ⟨u, bits, t, hsync, hbits, htakes, (Except.ok.inj hstep).symm⟩
      · cases hstep
  · intro hcoded
    rcases hcoded with ⟨u, bits, t, hsync, hbits, htakes, rfl⟩
    rw [hsync]
    dsimp only
    rw [(decodeUnit_iff h).mpr ⟨bits, hbits, htakes⟩]

theorem run_succ {m : Nat} {s v : Progress} :
    p.run (m + 1) s = .ok v ↔ ∃ u, p.step s = .ok u ∧ p.run m u = .ok v := by
  rw [run]
  cases p.step s with
  | error f => simp
  | ok u => simp

theorem run_one (s : Progress) : p.run 1 s = p.step s := by
  rw [run]
  cases p.step s <;> rfl

theorem run_add {m n : Nat} {s v : Progress} :
    p.run (m + n) s = .ok v ↔ ∃ u, p.run m s = .ok u ∧ p.run n u = .ok v := by
  induction m generalizing s with
  | zero => simp [run]
  | succ m ih =>
    rw [Nat.succ_add, run_succ]
    simp only [run_succ, ih]
    constructor
    · intro hcoded
      rcases hcoded with ⟨t, ht, u, hu, hv⟩
      exact ⟨u, ⟨t, ht, hu⟩, hv⟩
    · intro hcoded
      rcases hcoded with ⟨u, ⟨t, ht, hu⟩, hv⟩
      exact ⟨t, ht, u, hu, hv⟩

/-- Units are decoded one after another if a restart marker is due at most before the first. -/
theorem run_iff (h : ∀ c ∈ p.blocks, c.Built) {m : Nat} {s v : Progress}
    (hquiet : ∀ i < m, p.restartsAt (s.unit + 1 + i) = false) :
    p.run (m + 1) s = .ok v ↔ ∃ u bits t, p.sync s = .ok u ∧ UnitsBits p.blocks (m + 1) bits ∧
      BitReader.Takes bits u.reader t ∧ v = ⟨s.unit + (m + 1), u.expected, t⟩ := by
  induction m generalizing s with
  | zero =>
    rw [Nat.zero_add, run_one, step_iff h]
    simp only [unitsBits_one]
    constructor
    · intro hcoded
      rcases hcoded with ⟨u, bits, t, hsync, hbits, htakes, rfl⟩
      exact ⟨u, bits, t, hsync, hbits, htakes, by rw [sync_unit hsync]⟩
    · intro hcoded
      rcases hcoded with ⟨u, bits, t, hsync, hbits, htakes, rfl⟩
      exact ⟨u, bits, t, hsync, hbits, htakes, by rw [sync_unit hsync]⟩
  | succ m ih =>
    have hunit : s.unit + 1 + (m + 1) = s.unit + (m + 1 + 1) := by omega
    have hnext {r : BitReader} {expected : Nat} := ih (s := ⟨s.unit + 1, expected, r⟩)
      fun i hi => by
        have := hquiet (i + 1) (Nat.succ_lt_succ hi)
        rwa [Nat.add_comm i, ← Nat.add_assoc] at this
    have hsame {r : BitReader} {expected : Nat} :
        p.sync ⟨s.unit + 1, expected, r⟩ = .ok ⟨s.unit + 1, expected, r⟩ :=
      sync_of_not_restartsAt (hquiet 0 (Nat.succ_pos m))
    dsimp only at hnext
    rw [hunit] at hnext
    rw [run_succ]
    constructor
    · intro hcoded
      rcases hcoded with ⟨w, hstep, hrun⟩
      obtain ⟨u, bits, r, hsync, hbits, hr, rfl⟩ := (step_iff h).mp hstep
      rw [sync_unit hsync] at hrun
      obtain ⟨u', more, t, hsync', hmore, htakes, rfl⟩ := hnext.mp hrun
      obtain rfl := Except.ok.inj (hsame.symm.trans hsync')
      refine ⟨u, bits ++ more, t, hsync, .succ hbits hmore, ?_, rfl⟩
      exact BitReader.takes_append.mpr ⟨r, hr, htakes⟩
    · intro hcoded
      rcases hcoded with ⟨u, bits, t, hsync, hbits, htakes, hv⟩
      cases hbits with
      | succ hfirst hmore =>
        obtain ⟨r, hr, htakes⟩ := BitReader.takes_append.mp htakes
        refine ⟨_, (step_iff h).mpr ⟨u, _, r, hsync, hfirst, hr, rfl⟩, ?_⟩
        rw [sync_unit hsync]
        exact hnext.mpr ⟨_, _, t, hsame, hmore, htakes, hv⟩

theorem restartsAt_start {i : Nat} (hinterval : 0 < p.interval) (hi : 0 < i) :
    p.restartsAt (i * p.interval) = true := by
  simp [restartsAt, hinterval, Nat.mul_pos hi hinterval]

theorem restartsAt_inside {i k : Nat} (h : k + 1 < p.interval) :
    p.restartsAt (i * p.interval + 1 + k) = false := by
  have hmod : (i * p.interval + 1 + k) % p.interval = k + 1 := by
    rw [Nat.add_assoc, Nat.add_comm 1, Nat.mul_comm, Nat.mul_add_mod, Nat.mod_eq_of_lt h]
  simp [restartsAt, hmod]

/-- Behind a restart marker, interval `i` and all that follow it are decoded. -/
def Completes (p : Plan) (units i : Nat) (u : Progress) : Prop :=
  ∃ bits t v, UnitsBits p.blocks (intervalSize units p.interval i) bits ∧
    BitReader.Takes bits u.reader t ∧
    p.run (units - (i + 1) * p.interval)
      ⟨i * p.interval + intervalSize units p.interval i, u.expected, t⟩ = .ok v

/-- Units are decoded up to the end by the interval that is next and then the others. -/
private theorem run_completes (h : ∀ c ∈ p.blocks, c.Built) (hinterval : 0 < p.interval)
    {units i : Nat} (hi : i * p.interval < units) {s : Progress} (hs : s.unit = i * p.interval) :
    (∃ v, p.run (units - i * p.interval) s = .ok v) ↔
      ∃ u, p.sync s = .ok u ∧ p.Completes units i u := by
  obtain ⟨m, hm⟩ : ∃ m, intervalSize units p.interval i = m + 1 :=
    Nat.exists_eq_succ_of_ne_zero (Nat.ne_of_gt (intervalSize_pos hinterval hi))
  have hle : m + 1 ≤ p.interval := hm ▸ Nat.min_le_left _ _
  have hquiet : ∀ k < m, p.restartsAt (s.unit + 1 + k) = false := fun k hk =>
    hs ▸ restartsAt_inside (by omega)
  have hunits := intervalSize_add units p.interval i
  rw [hm] at hunits
  simp only [← hunits, run_add, run_iff h hquiet, Completes, hm, hs]
  constructor
  · intro hcoded
    rcases hcoded with ⟨v, _, ⟨u, bits, t, hsync, hbits, htakes, rfl⟩, hrun⟩
    exact ⟨u, hsync, bits, t, v, hbits, htakes, hrun⟩
  · intro hcoded
    rcases hcoded with ⟨u, hsync, bits, t, v, hbits, htakes, hrun⟩
    exact ⟨v, _, ⟨u, bits, t, hsync, hbits, htakes, rfl⟩, hrun⟩

/-- Behind interval `i` its restart marker has to follow, and a new byte begins after it. -/
private theorem run_restart_iff (h : ∀ c ∈ p.blocks, c.Built) (hinterval : 0 < p.interval)
    {units i : Nat} (hlt : (i + 1) * p.interval < units) {t : BitReader} :
    (∃ v, p.run (units - (i + 1) * p.interval) ⟨(i + 1) * p.interval, i % 8, t⟩ = .ok v) ↔
      ∃ rest, t.rest = 0xFF :: UInt8.ofNat (0xD0 + i % 8) :: rest ∧ p.Completes units (i + 1)
        ⟨(i + 1) * p.interval, (i + 1) % 8, ⟨rest, t.position + 2, []⟩⟩ := by
  have hdue := restartsAt_start hinterval (Nat.succ_pos i)
  have hnext : (i % 8 + 1) % 8 = (i + 1) % 8 := Nat.mod_add_mod i 8 1
  rw [run_completes h hinterval hlt rfl, ← hnext]
  simp only [sync_iff hdue (Nat.mod_lt i (by decide))]
  constructor
  · intro hcoded
    rcases hcoded with ⟨u, ⟨rest, hmarker, rfl⟩, hcompletes⟩
    exact ⟨rest, hmarker, hcompletes⟩
  · intro hcoded
    rcases hcoded with ⟨rest, hmarker, hcompletes⟩
    exact ⟨_, ⟨rest, hmarker, rfl⟩, hcompletes⟩

/-- The last `k + 1` intervals are decoded exactly from their bytes. The induction is on the number
of intervals; the reader stands at the beginning of a byte before each. -/
private theorem completes_iff (h : ∀ c ∈ p.blocks, c.Built) (hinterval : 0 < p.interval)
    {units k i : Nat} (hlow : (i + k) * p.interval < units)
    (hhigh : units ≤ (i + k + 1) * p.interval) {u : Progress} (hexpected : u.expected = i % 8)
    (hpending : u.reader.pending = []) :
    p.Completes units i u ↔ ∃ bytes rest, IntervalsBytes p.blocks i
      ((List.range' i (k + 1)).map (intervalSize units p.interval)) bytes ∧
      u.reader.rest = bytes ++ rest := by
  induction k generalizing i u with
  | zero =>
    have hdone : units - (i + 1) * p.interval = 0 := Nat.sub_eq_zero_of_le hhigh
    rw [Completes, hdone]
    refine Iff.trans ?_ (exists_takes_last_iff hpending)
    constructor
    · intro hcoded
      rcases hcoded with ⟨bits, t, v, hbits, htakes, _⟩
      exact ⟨bits, t, hbits, htakes⟩
    · intro hcoded
      rcases hcoded with ⟨bits, t, hbits, htakes⟩
      exact ⟨bits, t, _, hbits, htakes, rfl⟩
  | succ k ih =>
    have hmul : (i + 1) * p.interval ≤ (i + (k + 1)) * p.interval :=
      Nat.mul_le_mul_right _ (by omega)
    have hlt : (i + 1) * p.interval < units := Nat.lt_of_le_of_lt hmul hlow
    have hsize : i * p.interval + intervalSize units p.interval i = (i + 1) * p.interval := by
      rw [intervalSize_eq hlt, Nat.add_one_mul]
    have hshift : i + (k + 1) = i + 1 + k := Nat.add_right_comm i k 1
    rw [hshift] at hlow hhigh
    rw [Completes, hsize, hexpected]
    constructor
    · intro hcoded
      rcases hcoded with ⟨bits, t, v, hbits, htakes, hrun⟩
      obtain ⟨bytes, hbytes, hrest⟩ :=
        (exists_takes_iff hpending).mp ⟨bits, t, hbits, htakes, rfl⟩
      obtain ⟨next, hmarker, hcompletes⟩ := (run_restart_iff h hinterval hlt).mp ⟨v, hrun⟩
      obtain ⟨more, rest, hmore, hnext⟩ := (ih hlow hhigh rfl rfl).mp hcompletes
      obtain rfl : next = more ++ rest := hnext
      refine ⟨_, rest, .restart hbytes hmore, ?_⟩
      rw [hrest, hmarker, List.append_assoc]
      rfl
    · intro hcoded
      rcases hcoded with ⟨bytes, rest, hbytes, hrest⟩
      cases hbytes with
      | restart hbytes hmore =>
        rw [List.append_assoc] at hrest
        obtain ⟨bits, t, hbits, htakes, hmarker⟩ :=
          (exists_takes_iff hpending).mpr ⟨_, hbytes, hrest⟩
        obtain ⟨v, hrun⟩ := (run_restart_iff h hinterval hlt).mpr
          ⟨_, hmarker, (ih hlow hhigh rfl rfl).mpr ⟨_, rest, hmore, rfl⟩⟩
        exact ⟨bits, t, v, hbits, htakes, hrun⟩

/-- A scan is decoded to its end exactly from the bytes of its intervals. -/
theorem run_ok_iff (h : ∀ c ∈ p.blocks, c.Built) {units : Nat} (hunits : 0 < units)
    {r : BitReader} (hpending : r.pending = []) :
    (∃ v, p.run units ⟨0, 0, r⟩ = .ok v) ↔ ∃ bytes rest,
      IntervalsBytes p.blocks 0 (intervalSizes units p.interval) bytes ∧
      r.rest = bytes ++ rest := by
  have hfirst : p.sync ⟨0, 0, r⟩ = .ok ⟨0, 0, r⟩ := sync_of_not_restartsAt (by simp [restartsAt])
  rw [intervalSizes]
  split
  · next hnone =>
    obtain ⟨m, rfl⟩ := Nat.exists_eq_succ_of_ne_zero (Nat.ne_of_gt hunits)
    have hquiet : ∀ i < m, p.restartsAt (0 + 1 + i) = false := by simp [restartsAt, hnone]
    have hrun {v : Progress} := run_iff (s := ⟨0, 0, r⟩) (v := v) h hquiet
    refine Iff.trans ?_ (exists_takes_last_iff hpending)
    constructor
    · intro hcoded
      rcases hcoded with ⟨v, hv⟩
      obtain ⟨u, bits, t, hsync, hbits, htakes, _⟩ := hrun.mp hv
      obtain rfl := Except.ok.inj (hfirst.symm.trans hsync)
      exact ⟨bits, t, hbits, htakes⟩
    · intro hcoded
      rcases hcoded with ⟨bits, t, hbits, htakes⟩
      exact ⟨_, hrun.mpr ⟨_, bits, t, hfirst, hbits, htakes, rfl⟩⟩
  · next hsome =>
    have hinterval := Nat.pos_of_ne_zero hsome
    have hpos := ceilDiv_pos hunits hinterval
    obtain ⟨k, hk⟩ : ∃ k, ceilDiv units p.interval = k + 1 :=
      Nat.exists_eq_succ_of_ne_zero (Nat.ne_of_gt hpos)
    have hlow : (0 + k) * p.interval < units := (lt_ceilDiv_iff hinterval).mp (by omega)
    have hhigh : units ≤ (0 + k + 1) * p.interval :=
      Nat.le_of_not_lt (mt (lt_ceilDiv_iff hinterval).mpr (by omega))
    have hzero : 0 * p.interval < units := by rwa [Nat.zero_mul]
    have hrun := run_completes h hinterval hzero (s := ⟨0, 0, r⟩) (Nat.zero_mul p.interval).symm
    rw [Nat.zero_mul, Nat.sub_zero, hfirst] at hrun
    rw [hrun, hk, List.range_eq_range', ← completes_iff h hinterval hlow hhigh
      (u := ⟨0, 0, r⟩) rfl hpending]
    simp

end Plan

/-- The blocks of a unit: those of every component in turn, `count` telling their number. -/
inductive UnitBlocks (f : Frame) (tables : Huffman.Tables) (count : FrameComponent → Nat) :
    List ScanComponent → List Coding → Prop where
  | nil : UnitBlocks f tables count [] []
  | cons {c : ScanComponent} {rest : List ScanComponent} {found : FrameComponent}
      {dc ac : Huffman.Table} {blocks : List Coding} (hfound : f.find? c.id = some found)
      (hdc : tables.get? .dc c.dcSelector = some dc) (hac : tables.get? .ac c.acSelector = some ac)
      (hrest : UnitBlocks f tables count rest blocks) :
      UnitBlocks f tables count (c :: rest) (List.replicate (count found) ⟨dc, ac⟩ ++ blocks)

/-- Blocks of a component in a unit. A component that is alone in its scan has one, among others
it has as many as its sampling factors ask for. -/
def blockCount (components : List ScanComponent) (c : FrameComponent) : Nat :=
  if components.length = 1 then 1 else c.horizontal * c.vertical

/-- The component is one of the frame, and both of its tables are defined. -/
def Resolves (f : Frame) (tables : Huffman.Tables) (c : ScanComponent) : Prop :=
  ∃ found dc ac, f.find? c.id = some found ∧ tables.get? .dc c.dcSelector = some dc ∧
    tables.get? .ac c.acSelector = some ac ∧ dc.Built ∧ ac.Built

/-- The last scan of the frame has units, and all that they are decoded with is there. -/
structure Decodable (f : Frame) (tables : Huffman.Tables) (scan : Scan) : Prop where
  width : f.width ≠ 0
  height : f.height ≠ 0
  sampling : ∀ c ∈ f.components, 1 ≤ c.horizontal ∧ 1 ≤ c.vertical
  last : f.scans.getLast? = some scan
  components : ∀ c ∈ scan.components, Resolves f tables c

variable {f : Frame} {tables : Huffman.Tables} {scan : Scan}

private theorem foldl_max_pos {components : List FrameComponent} {size : FrameComponent → Nat}
    {m : Nat} (h : 0 < m) : 0 < components.foldl (fun m c => max m (size c)) m := by
  induction components generalizing m with
  | nil => exact h
  | cons c components ih => exact ih (Nat.lt_of_lt_of_le h (Nat.le_max_left _ _))

/-- No scan that can be decoded is without units. -/
theorem Decodable.units_pos (h : Decodable f tables scan) {layout : Layout}
    (hlayout : Layout.ofScan? f scan.components = some layout) : 0 < layout.units := by
  have hhorizontal : 0 < f.maxHorizontal := foldl_max_pos Nat.one_pos
  have hvertical : 0 < f.maxVertical := foldl_max_pos Nat.one_pos
  have hwidth := Nat.pos_of_ne_zero h.width
  have hheight := Nat.pos_of_ne_zero h.height
  unfold Layout.ofScan? at hlayout
  rw [if_neg (by simp [h.width, h.height])] at hlayout
  split at hlayout
  · obtain ⟨found, hfound, rfl⟩ := Option.map_eq_some_iff.mp hlayout
    obtain ⟨hx, hy⟩ := h.sampling found (List.mem_of_find?_eq_some hfound)
    exact Nat.mul_pos
      (ceilDiv_pos (ceilDiv_pos (Nat.mul_pos hwidth hx) hhorizontal) (by decide))
      (ceilDiv_pos (ceilDiv_pos (Nat.mul_pos hheight hy) hvertical) (by decide))
  · obtain ⟨found, hfound, rfl⟩ := Option.map_eq_some_iff.mp hlayout
    exact Nat.mul_pos (ceilDiv_pos hwidth (Nat.mul_pos (by decide) hhorizontal))
      (ceilDiv_pos hheight (Nat.mul_pos (by decide) hvertical))

theorem UnitBlocks.built {count : FrameComponent → Nat} {components : List ScanComponent}
    {blocks : List Coding} (h : UnitBlocks f tables count components blocks)
    (hresolves : ∀ c ∈ components, Resolves f tables c) : ∀ c ∈ blocks, c.Built := by
  induction h with
  | nil => exact List.forall_mem_nil _
  | @cons c rest found dc ac blocks hfound hdc hac _ ih =>
    intro b hb
    rcases List.mem_append.mp hb with hb | hb
    · obtain ⟨_, dc', ac', _, hdc', hac', hbuilt, hbuilt'⟩ := hresolves c List.mem_cons_self
      obtain rfl := Option.some.inj (hdc.symm.trans hdc')
      obtain rfl := Option.some.inj (hac.symm.trans hac')
      rw [(List.mem_replicate.mp hb).2]
      exact ⟨hbuilt, hbuilt'⟩
    · exact ih (fun c hmem => hresolves c (List.mem_cons_of_mem _ hmem)) b hb

/-- Components whose tables are there are found and lined up with their block counts. -/
private theorem exists_unitBlocks {components : List ScanComponent}
    (h : ∀ c ∈ components, Resolves f tables c) (count : FrameComponent → Nat) :
    missingTables tables components = [] ∧
    ∃ found, (components.mapM fun c => f.find? c.id) = some found ∧
      UnitBlocks f tables count components (((codings tables components).zip
        (found.map count)).flatMap fun (c, n) => List.replicate n c) := by
  induction components with
  | nil => exact ⟨rfl, [], rfl, .nil⟩
  | cons c rest ih =>
    obtain ⟨found, dc, ac, hfound, hdc, hac, _⟩ := h c List.mem_cons_self
    obtain ⟨hmissing, others, hothers, hblocks⟩ :=
      ih fun c hmem => h c (List.mem_cons_of_mem _ hmem)
    have hcoding : coding tables c = .ok ⟨dc, ac⟩ := by rw [coding, hdc, hac]
    refine ⟨?_, found :: others, ?_, ?_⟩
    · rw [missingTables, List.flatMap_cons, hcoding]
      exact hmissing
    · rw [List.mapM_cons, hfound, hothers]
      rfl
    · have hcodings : codings tables (c :: rest) = ⟨dc, ac⟩ :: codings tables rest := by
        rw [codings, List.filterMap_cons, hcoding]
        rfl
      rw [hcodings]
      exact .cons hfound hdc hac hblocks

/-- The layout of a scan that can be decoded counts the blocks of its components. -/
theorem Decodable.exists_layout (h : Decodable f tables scan) :
    ∃ layout blocks, Layout.ofScan? f scan.components = some layout ∧
      UnitBlocks f tables (blockCount scan.components) scan.components blocks ∧
      ((codings tables scan.components).zip layout.blocks).flatMap
        (fun (c, n) => List.replicate n c) = blocks := by
  obtain ⟨_, found, hfound, hblocks⟩ := exists_unitBlocks h.components (blockCount scan.components)
  unfold Layout.ofScan?
  rw [if_neg (by simp [h.width, h.height])]
  split
  · next single hsingle =>
    rw [hsingle] at hfound hblocks ⊢
    obtain ⟨only, honly, rfl⟩ : ∃ only, f.find? single.id = some only ∧ [only] = found := by
      simpa [List.mapM_cons, Option.bind_eq_some_iff] using hfound
    exact ⟨_, _, congrArg (Option.map _) honly, hblocks, rfl⟩
  · next hseveral =>
    have hcount : blockCount scan.components = fun c => c.horizontal * c.vertical := by
      funext c
      exact if_neg fun hlength => hseveral _ (List.length_eq_one_iff.mp hlength).choose_spec
    rw [hcount] at hblocks ⊢
    exact ⟨_, _, congrArg (Option.map _) hfound, hblocks, rfl⟩

def singleCode (tableClass : Nat) : Huffman.Table :=
  let counts := 1 :: List.replicate 15 0
  ⟨tableClass, 0, counts, #[0], [1], [0], (Huffman.groups counts).toArray⟩

theorem built_singleCode (tableClass : Nat) : (singleCode tableClass).Built :=
  ⟨tableClass, 0, 1 :: List.replicate 15 0, #[0], rfl, rfl, rfl⟩

def twoBlocks : Frame :=
  ⟨0xFFC0, .baseline, 8, 8, 16, [⟨1, 1, 1, 0⟩], [⟨[⟨1, 0, 0⟩], 0, 63, 0, 0⟩]⟩

def singleCodes : Huffman.Tables := (Huffman.Tables.empty.store (singleCode 0)).store (singleCode 1)

def twoIntervals : ByteArray := ⟨#[0x3F, 0xFF, 0xD0, 0x3F]⟩

end ImageAudit.Jpeg.ScanData
