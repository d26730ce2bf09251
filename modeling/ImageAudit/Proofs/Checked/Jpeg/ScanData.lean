import ImageAudit.Jpeg.ScanData
import ImageAudit.Proofs.Checked.Jpeg.BitReader

/-! Decoding a scan with operations that can go wrong. Dimensions and sampling factors of a frame
have sixteen and eight bits, so its units can be counted, and no sampling factor that is divided by
is zero. Every turn over the coefficients of a block moves on to a later one. -/
namespace ImageAudit.Jpeg

open Checked

structure Frame.Sound (f : Frame) : Prop where
  width_le : f.width ≤ maxHalf
  height_le : f.height ≤ maxHalf
  sampling_le : ∀ c ∈ f.components, c.horizontal ≤ maxByte ∧ c.vertical ≤ maxByte

namespace Layout

def checkedPlane (f : Frame) (c : FrameComponent) : Checked (Nat × Nat) := do
  let columns ← mul maxWord f.width c.horizontal
  let width ← Checked.ceilDiv maxWord columns f.maxHorizontal
  let rows ← mul maxWord f.height c.vertical
  let height ← Checked.ceilDiv maxWord rows f.maxVertical
  pure (width, height)

def checkedBlocks (f : Frame) : List ScanComponent → Checked (Option (List Nat))
  | [] => pure (some [])
  | c :: rest =>
    match f.find? c.id with
    | none => pure none
    | some c => do
      let blocks ← mul maxLong c.horizontal c.vertical
      let more ← checkedBlocks f rest
      pure (more.map (blocks :: ·))

def checkedInterleaved (f : Frame) (components : List ScanComponent) :
    Checked (Option Layout) := do
  let across ← mul maxWord blockSide f.maxHorizontal
  let columns ← Checked.ceilDiv maxWord f.width across
  let down ← mul maxWord blockSide f.maxVertical
  let rows ← Checked.ceilDiv maxWord f.height down
  let units ← mul maxWord columns rows
  let blocks ← checkedBlocks f components
  pure (blocks.map (⟨units, ·⟩))

def checkedOfScan? (f : Frame) (components : List ScanComponent) : Checked (Option Layout) :=
  if f.width = 0 ∨ f.height = 0 then pure none
  else match components with
    | [single] =>
      match f.find? single.id with
      | none => pure none
      | some c => do
        let (width, height) ← checkedPlane f c
        let columns ← Checked.ceilDiv maxWord width blockSide
        let rows ← Checked.ceilDiv maxWord height blockSide
        let units ← mul maxWord columns rows
        pure (some ⟨units, [1]⟩)
    | _ => checkedInterleaved f components

private theorem ceilDiv_le {total size : Nat} (h : 0 < size) :
    ImageAudit.ceilDiv total size ≤ total :=
  (ceilDiv_le_iff h).mpr (Nat.le_mul_of_pos_right _ h)

variable {f : Frame}

theorem maxHorizontal_pos (f : Frame) : 0 < f.maxHorizontal :=
  (Frame.maxHorizontal_le_iff.mp (Nat.le_refl _)).1

theorem maxVertical_pos (f : Frame) : 0 < f.maxVertical :=
  (Frame.maxVertical_le_iff.mp (Nat.le_refl _)).1

private theorem maxHorizontal_le (h : f.Sound) : f.maxHorizontal ≤ maxByte :=
  Frame.maxHorizontal_le_iff.mpr ⟨by decide, fun c hmem => (h.sampling_le c hmem).1⟩

private theorem maxVertical_le (h : f.Sound) : f.maxVertical ≤ maxByte :=
  Frame.maxVertical_le_iff.mpr ⟨by decide, fun c hmem => (h.sampling_le c hmem).2⟩

private theorem sampling_le_of_find? (h : f.Sound) {id : Nat} {c : FrameComponent}
    (hfind : f.find? id = some c) : c.horizontal ≤ maxByte ∧ c.vertical ≤ maxByte :=
  h.sampling_le c (List.mem_of_find?_eq_some hfind)

private theorem checkedBlocks_eq (h : f.Sound) (components : List ScanComponent) :
    checkedBlocks f components =
      pure ((components.mapM fun c => f.find? c.id).map fun found =>
        found.map fun c => c.horizontal * c.vertical) := by
  induction components with
  | nil => rfl
  | cons c components ih =>
    rw [checkedBlocks, List.mapM_cons]
    cases hfind : f.find? c.id with
    | none => rfl
    | some component =>
      obtain ⟨hhorizontal, hvertical⟩ := sampling_le_of_find? h hfind
      have hblocks : component.horizontal * component.vertical ≤ maxByte * maxByte :=
        Nat.mul_le_mul hhorizontal hvertical
      dsimp only
      rw [mul_eq (Nat.le_trans hblocks (by decide)), pure_bind, ih, pure_bind]
      cases components.mapM fun c => f.find? c.id <;> rfl

private theorem checkedInterleaved_eq (h : f.Sound) (components : List ScanComponent) :
    checkedInterleaved f components =
      pure ((components.mapM fun c => f.find? c.id).map fun found =>
        ⟨ImageAudit.ceilDiv f.width (blockSide * f.maxHorizontal) *
            ImageAudit.ceilDiv f.height (blockSide * f.maxVertical),
          found.map fun c => c.horizontal * c.vertical⟩) := by
  have hacross := Nat.mul_le_mul_left blockSide (maxHorizontal_le h)
  have hdown := Nat.mul_le_mul_left blockSide (maxVertical_le h)
  have hcolumns : 0 < blockSide * f.maxHorizontal :=
    Nat.mul_pos (by decide) (maxHorizontal_pos f)
  have hrows : 0 < blockSide * f.maxVertical := Nat.mul_pos (by decide) (maxVertical_pos f)
  have hunits := Nat.mul_le_mul (Nat.le_trans (@ceilDiv_le f.width _ hcolumns) h.width_le)
    (Nat.le_trans (@ceilDiv_le f.height _ hrows) h.height_le)
  have hhalf : maxHalf ≤ maxWord := by decide
  rw [checkedInterleaved, mul_eq (Nat.le_trans hacross (by decide)), pure_bind,
    ceilDiv_eq (Nat.le_trans h.width_le hhalf) hcolumns, pure_bind,
    mul_eq (Nat.le_trans hdown (by decide)), pure_bind,
    ceilDiv_eq (Nat.le_trans h.height_le hhalf) hrows, pure_bind,
    mul_eq (Nat.le_trans hunits (by decide)), pure_bind, checkedBlocks_eq h, pure_bind,
    Option.map_map]
  rfl

/-- The plane of a component is counted within the width of the products of its size. -/
private theorem checkedPlane_eq {c : FrameComponent}
    (hcolumns : f.width * c.horizontal ≤ maxHalf * maxByte)
    (hrows : f.height * c.vertical ≤ maxHalf * maxByte) :
    checkedPlane f c = pure (plane f c) ∧ (plane f c).1 ≤ maxHalf * maxByte ∧
      (plane f c).2 ≤ maxHalf * maxByte := by
  have hword : maxHalf * maxByte ≤ maxWord := by decide
  refine ⟨?_, Nat.le_trans (ceilDiv_le (maxHorizontal_pos f)) hcolumns,
    Nat.le_trans (ceilDiv_le (maxVertical_pos f)) hrows⟩
  rw [checkedPlane, mul_eq (Nat.le_trans hcolumns hword), pure_bind,
    ceilDiv_eq (Nat.le_trans hcolumns hword) (maxHorizontal_pos f), pure_bind,
    mul_eq (Nat.le_trans hrows hword), pure_bind,
    ceilDiv_eq (Nat.le_trans hrows hword) (maxVertical_pos f), pure_bind]
  rfl

theorem checkedOfScan?_eq (h : f.Sound) (components : List ScanComponent) :
    checkedOfScan? f components = pure (ofScan? f components) := by
  unfold checkedOfScan? ofScan?
  split
  · rfl
  · rcases components with _ | ⟨single, _ | ⟨second, rest⟩⟩
    · exact checkedInterleaved_eq h _
    · dsimp only
      cases hfind : f.find? single.id with
      | none => rfl
      | some c =>
        obtain ⟨hhorizontal, hvertical⟩ := sampling_le_of_find? h hfind
        obtain ⟨hplane, hwidth, hheight⟩ := checkedPlane_eq
          (Nat.mul_le_mul h.width_le hhorizontal) (Nat.mul_le_mul h.height_le hvertical)
        have hside : 0 < blockSide := by decide
        have hunits := Nat.mul_le_mul (Nat.le_trans (ceilDiv_le hside) hwidth)
          (Nat.le_trans (ceilDiv_le hside) hheight)
        dsimp only
        rw [hplane, pure_bind, ceilDiv_eq (Nat.le_trans hwidth (by decide)) hside, pure_bind,
          ceilDiv_eq (Nat.le_trans hheight (by decide)) hside, pure_bind,
          mul_eq (Nat.le_trans hunits (by decide)), pure_bind]
        rfl
    · exact checkedInterleaved_eq h _

end Layout

def Huffman.Tables.Canonical (tables : Huffman.Tables) : Prop :=
  ∀ c id t, tables.get? c id = some t → t.Canonical

namespace ScanData

open BitCursor

def checkedCoefficient (size : Nat) (c : BitCursor) :
    Checked (Except BitError Int × BitCursor) := do
  let (value, c) ← c.checkedReceive size
  match value with
  | .ok value => do
    let coefficient ← checkedExtend value size
    pure (.ok coefficient, c)
  | .error e => pure (.error e, c)

def checkedDecodeDc (t : Huffman.Table) (c : BitCursor) :
    Checked (Except BlockError Unit × BitCursor) := do
  let (category, c) ← c.checkedDecode t
  match category with
  | .error e => pure (.error (.bits e), c)
  | .ok category =>
    if maxCategory < category.toNat then pure (.error (.bits .invalidCode), c)
    else do
      let (coefficient, c) ← checkedCoefficient category.toNat c
      match coefficient with
      | .error e => pure (.error (.bits e), c)
      | .ok _ => pure (.ok (), c)

def checkedDecodeAc (t : Huffman.Table) :
    (turns k : Nat) → BitCursor → Checked (Except BlockError Unit × BitCursor)
  | 0, _, _ => throw .endless
  | turns + 1, k, c =>
    if k < blockSize then do
      let (symbol, c) ← c.checkedDecode t
      match symbol with
      | .error e => pure (.error (.bits e), c)
      | .ok symbol =>
        let run := symbol.toNat / 16
        let category := symbol.toNat % 16
        if category = 0 then
          if run = 15 then do
            let k ← add maxWord k 16
            if blockSize < k then pure (.error .overflow, c) else checkedDecodeAc t turns k c
          else pure (.ok (), c)
        else do
          let k ← add maxWord k run
          if blockSize ≤ k then pure (.error .overflow, c)
          else do
            let (coefficient, c) ← checkedCoefficient category c
            match coefficient with
            | .error e => pure (.error (.bits e), c)
            | .ok _ => do
              let k ← add maxWord k 1
              checkedDecodeAc t turns k c
    else pure (.ok (), c)

def checkedDecodeBlock (coding : Coding) (c : BitCursor) :
    Checked (Except BlockError Unit × BitCursor) := do
  let (result, c) ← checkedDecodeDc coding.dc c
  match result with
  | .error e => pure (.error e, c)
  | .ok () => checkedDecodeAc coding.ac blockSize 1 c

def checkedDecodeUnit :
    (blocks : List Coding) → BitCursor → Checked (Except BlockError Unit × BitCursor)
  | [], c => pure (.ok (), c)
  | coding :: rest, c => do
    let (result, c) ← checkedDecodeBlock coding c
    match result with
    | .error e => pure (.error e, c)
    | .ok () => checkedDecodeUnit rest c

variable {c : BitCursor}

private theorem lt_of_receive {r s : BitReader} {n value : Nat}
    (h : r.receive n = (.ok value, s)) : value < 0x10000 := by
  rw [BitReader.receive] at h
  have hvalue := (Prod.mk.inj h).1
  cases hfrom : (BitReader.receiveFrom n 0 r).1 with
  | error e =>
    rw [hfrom] at hvalue
    cases hvalue
  | ok whole =>
    rw [hfrom] at hvalue
    obtain rfl := Except.ok.inj hvalue
    exact Nat.mod_lt _ (by decide)

private theorem checkedCoefficient_follows (h : c.Sound) {size : Nat} (hsize : size ≤ maxCategory) :
    Follows (checkedCoefficient size c) (readCoefficient size c.reader) := by
  obtain ⟨result, d, hx, hy, hd⟩ := checkedReceive_follows h size
  rw [checkedCoefficient, hx, pure_bind, readCoefficient]
  cases result with
  | error e =>
    rw [hy]
    exact hd.pure _
  | ok value =>
    dsimp only
    rw [checkedExtend_eq (lt_of_receive hy) hsize, pure_bind, hy]
    exact hd.pure _

private theorem checkedDecodeDc_follows {t : Huffman.Table} (ht : t.Canonical) (h : c.Sound) :
    Follows (checkedDecodeDc t c) (decodeDc t c.reader) := by
  obtain ⟨result, d, hx, hy, hd⟩ := checkedDecode_follows ht h
  rw [checkedDecodeDc, hx, pure_bind, decodeDc, hy]
  cases result with
  | error e => exact hd.pure _
  | ok category =>
    dsimp only
    split
    · exact hd.pure _
    · next hsize =>
      obtain ⟨result, d, hx, hy, hd⟩ := checkedCoefficient_follows hd (Nat.le_of_not_lt hsize)
      rw [hx, pure_bind, hy]
      cases result <;> exact hd.pure _

/-- A turn is taken for every coefficient at most, and one more. -/
private theorem checkedDecodeAc_follows {t : Huffman.Table} (ht : t.Canonical) (h : c.Sound)
    {turns k : Nat} (hk : k ≤ blockSize) (hturns : blockSize < k + turns) :
    Follows (checkedDecodeAc t turns k c) (decodeAc t k c.reader) := by
  have hsize : blockSize = 64 := rfl
  have hword : maxWord = 0xFFFFFFFFFFFFFFFF := rfl
  induction turns generalizing k c with
  | zero => omega
  | succ turns ih =>
    rw [checkedDecodeAc, decodeAc]
    split
    · obtain ⟨result, d, hx, hy, hd⟩ := checkedDecode_follows ht h
      rw [hx, pure_bind, hy]
      cases result with
      | error e => exact hd.pure _
      | ok symbol =>
        have hsymbol := symbol.toNat_lt
        dsimp only
        split
        · split
          · rw [add_eq (by omega), pure_bind]
            split
            · exact hd.pure _
            · exact ih hd (by omega) (by omega)
          · exact hd.pure _
        · rw [add_eq (by omega), pure_bind]
          split
          · exact hd.pure _
          · obtain ⟨result, d, hx, hy, hd⟩ := @checkedCoefficient_follows _ hd
              (symbol.toNat % 16) (Nat.le_of_lt (Nat.mod_lt _ (by decide)))
            rw [hx, pure_bind, hy]
            cases result with
            | error e => exact hd.pure _
            | ok coefficient =>
              dsimp only
              rw [add_eq (by omega), pure_bind]
              exact ih hd (by omega) (by omega)
    · exact h.pure _

def Coding.Canonical (coding : Coding) : Prop := coding.dc.Canonical ∧ coding.ac.Canonical

private theorem checkedDecodeBlock_follows {coding : Coding} (hcoding : coding.Canonical)
    (h : c.Sound) : Follows (checkedDecodeBlock coding c) (decodeBlock coding c.reader) := by
  obtain ⟨result, d, hx, hy, hd⟩ := checkedDecodeDc_follows hcoding.1 h
  rw [checkedDecodeBlock, hx, pure_bind, decodeBlock, hy]
  cases result with
  | error e => exact hd.pure _
  | ok _ => exact checkedDecodeAc_follows hcoding.2 hd (by decide) (by decide)

theorem checkedDecodeUnit_follows {blocks : List Coding} (hblocks : ∀ b ∈ blocks, b.Canonical)
    (h : c.Sound) : Follows (checkedDecodeUnit blocks c) (decodeUnit blocks c.reader) := by
  induction blocks generalizing c with
  | nil => exact h.pure _
  | cons coding blocks ih =>
    rw [List.forall_mem_cons] at hblocks
    obtain ⟨result, d, hx, hy, hd⟩ := checkedDecodeBlock_follows hblocks.1 h
    rw [checkedDecodeUnit, hx, pure_bind, decodeUnit, hy]
    cases result with
    | error e => exact hd.pure _
    | ok _ => exact ih hblocks.2 hd

structure Place where
  /-- Index of the next unit. -/
  unit : Nat
  /-- The restart marker that is due next. -/
  expected : Nat
  cursor : BitCursor

namespace Place

def progress (s : Place) : Progress := ⟨s.unit, s.expected, s.cursor.reader⟩

structure Sound (s : Place) : Prop where
  expected_lt : s.expected < 8
  cursor : s.cursor.Sound

/-- Nothing goes wrong, and the scan stands where it should or has the same fault. -/
def Reached (x : Checked (Except Finding Place)) (y : Except Finding Progress) : Prop :=
  (∃ s : Place, x = pure (.ok s) ∧ y = .ok s.progress ∧ s.Sound) ∨
    ∃ finding, x = pure (.error finding) ∧ y = .error finding

end Place

namespace Plan

def checkedRestartsAt (p : Plan) (unit : Nat) : Checked Bool :=
  if 0 < p.interval ∧ 0 < unit then do
    let rest ← mod unit p.interval
    pure (rest == 0)
  else pure false

def checkedSync (p : Plan) (s : Place) : Checked (Except Finding Place) := do
  if ← p.checkedRestartsAt s.unit then do
    let (result, cursor) ← s.cursor.checkedRestart s.expected
    match result with
    | .ok () => do
      let following ← add maxByte s.expected 1
      let expected ← mod following 8
      pure (.ok { s with cursor, expected })
    | .error e => pure (.error (restartFinding e))
  else pure (.ok s)

def checkedStep (p : Plan) (s : Place) : Checked (Except Finding Place) := do
  match ← p.checkedSync s with
  | .error finding => pure (.error finding)
  | .ok s => do
    let (result, cursor) ← checkedDecodeUnit p.blocks s.cursor
    match result with
    | .ok () => pure (.ok { s with cursor, unit := s.unit + 1 })
    | .error e => pure (.error (p.blockFinding s.unit e))

def checkedRun (p : Plan) : (count : Nat) → Place → Checked (Except Finding Place)
  | 0, s => pure (.ok s)
  | count + 1, s => do
    match ← p.checkedStep s with
    | .error finding => pure (.error finding)
    | .ok s => p.checkedRun count s

variable {p : Plan} {s : Place}

private theorem checkedRestartsAt_eq (p : Plan) (unit : Nat) :
    p.checkedRestartsAt unit = pure (p.restartsAt unit) := by
  rw [checkedRestartsAt, restartsAt]
  split
  · next hdue =>
    rw [mod_eq hdue.1, pure_bind, decide_eq_true hdue.1, decide_eq_true hdue.2]
    rfl
  · next hnot => rw [← Bool.decide_and, decide_eq_false hnot, Bool.false_and]

private theorem checkedSync_reached (p : Plan) (h : s.Sound) :
    Place.Reached (p.checkedSync s) (p.sync s.progress) := by
  rw [checkedSync, checkedRestartsAt_eq, pure_bind, sync]
  change Place.Reached (if p.restartsAt s.unit = true then _ else _)
    (if p.restartsAt s.unit = true then _ else _)
  split
  · obtain ⟨result, d, hx, hy, hd⟩ := checkedRestart_follows h.cursor s.expected
    have hexpected := h.expected_lt
    have hbyte : maxByte = 255 := rfl
    have hy' : s.progress.reader.restart s.progress.expected = (result, d.reader) := hy
    rw [hx, pure_bind, hy']
    cases result with
    | error e => exact .inr ⟨_, rfl, rfl⟩
    | ok _ =>
      dsimp only
      rw [add_eq (by omega), pure_bind, mod_eq (by decide), pure_bind]
      exact .inl ⟨_, rfl, rfl, Nat.mod_lt _ (by decide), hd⟩
  · exact .inl ⟨s, rfl, rfl, h⟩

theorem checkedStep_reached (hblocks : ∀ b ∈ p.blocks, b.Canonical) (h : s.Sound) :
    Place.Reached (p.checkedStep s) (p.step s.progress) := by
  rw [checkedStep, step]
  rcases checkedSync_reached p h with ⟨t, hx, hy, ht⟩ | ⟨finding, hx, hy⟩
  · obtain ⟨result, d, hx', hy', hd⟩ := checkedDecodeUnit_follows hblocks ht.cursor
    have hy'' : decodeUnit p.blocks t.progress.reader = (result, d.reader) := hy'
    rw [hx, pure_bind, hy]
    dsimp only
    rw [hx', pure_bind, hy'']
    cases result with
    | error e => exact .inr ⟨_, rfl, rfl⟩
    | ok _ => exact .inl ⟨_, rfl, rfl, ht.expected_lt, hd⟩
  · rw [hx, pure_bind, hy]
    exact .inr ⟨_, rfl, rfl⟩

theorem checkedRun_reached (hblocks : ∀ b ∈ p.blocks, b.Canonical) (h : s.Sound) (count : Nat) :
    Place.Reached (p.checkedRun count s) (p.run count s.progress) := by
  induction count generalizing s with
  | zero => exact .inl ⟨s, rfl, rfl, h⟩
  | succ count ih =>
    rw [checkedRun, run]
    rcases checkedStep_reached hblocks h with ⟨t, hx, hy, ht⟩ | ⟨finding, hx, hy⟩
    · rw [hx, pure_bind, hy]
      exact ih ht
    · rw [hx, pure_bind, hy]
      exact .inr ⟨_, rfl, rfl⟩

end Plan

def checkedCheck (f : Frame) (tables : Huffman.Tables) (interval : Nat) (data : ByteArray)
    (offset number : Nat) : Checked (List Finding) :=
  match f.scans.getLast? with
  | none => pure []
  | some scan =>
    let missing := missingTables tables scan.components
    if !missing.isEmpty then pure missing
    else do
      match ← Layout.checkedOfScan? f scan.components with
      | none => pure []
      | some layout => do
        let blocks := ((codings tables scan.components).zip layout.blocks).flatMap
          fun (c, n) => List.replicate n c
        let plan : Plan := ⟨blocks, layout.units, interval, number⟩
        match ← plan.checkedRun layout.units ⟨0, 0, .ofBytes data offset⟩ with
        | .ok _ => pure []
        | .error finding => pure [finding]

private theorem canonical_of_mem_codings {tables : Huffman.Tables} (h : tables.Canonical)
    {components : List ScanComponent} {coding : Coding} (hmem : coding ∈ codings tables components) :
    coding.Canonical := by
  obtain ⟨c, _, hcoding⟩ := List.mem_filterMap.mp hmem
  rw [ScanData.coding] at hcoding
  split at hcoding
  · next dc ac hdc hac =>
    obtain rfl := Option.some.inj hcoding
    exact ⟨h _ _ _ hdc, h _ _ _ hac⟩
  · cases hcoding

theorem checkedCheck_eq {f : Frame} (hf : f.Sound) {tables : Huffman.Tables}
    (htables : tables.Canonical) {data : ByteArray} {offset : Nat}
    (hend : offset + data.size < maxWord) (interval number : Nat) :
    checkedCheck f tables interval data offset number =
      pure (check f tables interval data offset number) := by
  rw [checkedCheck, check]
  cases f.scans.getLast? with
  | none => rfl
  | some scan =>
    dsimp only
    split
    · rfl
    · rw [Layout.checkedOfScan?_eq hf, pure_bind]
      cases Layout.ofScan? f scan.components with
      | none => rfl
      | some layout =>
        dsimp only
        generalize hblocks : ((codings tables scan.components).zip layout.blocks).flatMap
          (fun (c, n) => List.replicate n c) = blocks
        have hcanonical : ∀ b ∈ blocks, b.Canonical := by
          intro b hmem
          rw [← hblocks] at hmem
          obtain ⟨⟨c, n⟩, hpair, hb⟩ := List.mem_flatMap.mp hmem
          obtain rfl := List.eq_of_mem_replicate hb
          exact canonical_of_mem_codings htables (List.of_mem_zip hpair).1
        have hplace : (⟨0, 0, .ofBytes data offset⟩ : Place).Sound :=
          ⟨Nat.zero_lt_succ 7, sound_ofBytes hend⟩
        have hrun := @Plan.checkedRun_reached ⟨blocks, layout.units, interval, number⟩ _
          hcanonical hplace layout.units
        rcases hrun with ⟨s, hx, hy, _⟩ | ⟨finding, hx, hy⟩
        · rw [hx, pure_bind]
          have hy' : Plan.run _ _ ⟨0, 0, .ofBytes data offset⟩ = .ok s.progress := hy
          rw [hy']
        · rw [hx, pure_bind]
          have hy' : Plan.run _ _ ⟨0, 0, .ofBytes data offset⟩ = .error finding := hy
          rw [hy']

end ScanData
end ImageAudit.Jpeg
