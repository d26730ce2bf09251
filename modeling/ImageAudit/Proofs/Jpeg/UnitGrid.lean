import ImageAudit.Jpeg.Layout
import Mathlib.Order.Bounds.Basic

/-! Grids of units. The grid of an interleaved scan is computed from the size of the image and the
largest sampling factors alone, and still it is for each component the least one that holds all
samples: its units group the blocks that a scan of that component alone would code one by one. -/
namespace ImageAudit

section

variable {total size count : Nat}

/-- Parts of parts are parts of the product. -/
theorem ceilDiv_ceilDiv (hsize : 0 < size) (hcount : 0 < count) :
    ceilDiv (ceilDiv total size) count = ceilDiv total (count * size) := by
  refine eq_of_forall_ge_iff fun n => ?_
  rw [ceilDiv_le_iff hcount, ceilDiv_le_iff hsize, ceilDiv_le_iff (Nat.mul_pos hcount hsize),
    Nat.mul_assoc]

theorem ceilDiv_mul_mul_right (hsize : 0 < size) (hcount : 0 < count) :
    ceilDiv (total * count) (size * count) = ceilDiv total size := by
  refine eq_of_forall_ge_iff fun n => ?_
  rw [ceilDiv_le_iff (Nat.mul_pos hsize hcount), ceilDiv_le_iff hsize, ← Nat.mul_assoc,
    Nat.mul_le_mul_right_iff hcount]

end

namespace Jpeg

namespace Frame

variable {f : Frame} {most : Nat}

/-- The least bound of one and the values of all components is the greatest of these values, if that
is not zero. -/
private theorem eq_of_isGreatest {value : FrameComponent → Nat} {largest : Nat}
    (hle : ∀ {bound}, largest ≤ bound ↔ 1 ≤ bound ∧ ∀ c ∈ f.components, value c ≤ bound)
    (hpos : 1 ≤ most) (h : IsGreatest {n | ∃ c ∈ f.components, value c = n} most) :
    largest = most := by
  refine eq_of_forall_ge_iff fun n => ?_
  rw [hle]
  constructor
  · rintro ⟨-, hall⟩
    obtain ⟨c, hc, hmost⟩ := h.1
    exact hmost ▸ hall c hc
  · exact fun hn => ⟨Nat.le_trans hpos hn, fun c hc => Nat.le_trans (h.2 ⟨c, hc, rfl⟩) hn⟩

theorem maxHorizontal_eq (hpos : 1 ≤ most)
    (h : IsGreatest {n | ∃ c ∈ f.components, c.horizontal = n} most) : f.maxHorizontal = most :=
  eq_of_isGreatest maxHorizontal_le_iff hpos h

theorem maxVertical_eq (hpos : 1 ≤ most)
    (h : IsGreatest {n | ∃ c ∈ f.components, c.vertical = n} most) : f.maxVertical = most :=
  eq_of_isGreatest maxVertical_le_iff hpos h

end Frame

namespace Layout

section

variable {extent most factor units : Nat}

/-- Along one side of the image: a component with sampling factor `factor` has its share of the
`extent` samples in blocks, and a unit holds `factor` of these blocks. -/
theorem units_eq_ceilDiv_blocks (hmost : 0 < most) (hfactor : 0 < factor) :
    ceilDiv extent (blockSide * most) =
      ceilDiv (ceilDiv (ceilDiv (extent * factor) most) blockSide) factor := by
  have hside : 0 < blockSide := by decide
  rw [ceilDiv_ceilDiv hside hfactor, ceilDiv_ceilDiv hmost (Nat.mul_pos hfactor hside),
    Nat.mul_assoc, Nat.mul_comm factor, ceilDiv_mul_mul_right (Nat.mul_pos hside hmost) hfactor]

theorem units_le_iff (hmost : 0 < most) (hfactor : 0 < factor) :
    ceilDiv extent (blockSide * most) ≤ units ↔
      ceilDiv (extent * factor) most ≤ units * blockSide * factor := by
  rw [units_eq_ceilDiv_blocks hmost hfactor, ceilDiv_le_iff hfactor, ceilDiv_le_iff (by decide),
    Nat.mul_right_comm]

/-- No fewer units hold the samples of the component. -/
theorem isLeast_units (hmost : 0 < most) (hfactor : 0 < factor) :
    IsLeast {units | ceilDiv (extent * factor) most ≤ units * blockSide * factor}
      (ceilDiv extent (blockSide * most)) :=
  ⟨(units_le_iff hmost hfactor).mp (Nat.le_refl _), fun _ => (units_le_iff hmost hfactor).mpr⟩

/-- All `extent` samples along one side belong to a block of some unit if the units hold as many. -/
theorem forall_div_lt_iff (hfactor : 0 < factor) :
    (∀ x < extent, x / blockSide / factor < units) ↔ extent ≤ units * blockSide * factor := by
  have hside : 0 < blockSide := by decide
  simp only [Nat.div_lt_iff_lt_mul hfactor, Nat.div_lt_iff_lt_mul hside]
  rw [Nat.mul_right_comm]
  exact forall_lt_iff_le

end

/-- Whether in a grid of `across` by `down` units every sample of the component's plane is in a block
of some unit. -/
def Covers (across down : Nat) (c : FrameComponent) (width height : Nat) : Prop :=
  ∀ x < width, ∀ y < height,
    x / blockSide / c.horizontal < across ∧ y / blockSide / c.vertical < down

theorem covers_iff {across down width height : Nat} {c : FrameComponent} (hwidth : 0 < width)
    (hheight : 0 < height) :
    Covers across down c width height ↔
      (∀ x < width, x / blockSide / c.horizontal < across) ∧
        ∀ y < height, y / blockSide / c.vertical < down := by
  constructor
  · exact fun h => ⟨fun x hx => (h x hx 0 hheight).1, fun y hy => (h 0 hwidth y hy).2⟩
  · exact fun h x hx y hy => ⟨h.1 x hx, h.2 y hy⟩

private theorem mapM_eq_some {α β : Type} {g : α → Option β} {l : List α} {found : List β}
    (h : l.map g = found.map some) : l.mapM g = some found := by
  induction l generalizing found with
  | nil => simp_all
  | cons a l ih =>
    cases found with
    | nil => cases h
    | cons b found =>
      obtain ⟨hb, hfound⟩ := List.cons_eq_cons.mp h
      rw [List.mapM_cons, hb, ih hfound]
      rfl

section

variable {f : Frame} {components : List ScanComponent} {found : List FrameComponent}

theorem ofScan?_single (hwidth : 1 ≤ f.width) (hheight : 1 ≤ f.height) {single : ScanComponent}
    {c : FrameComponent} (hfound : f.find? single.id = some c) :
    ofScan? f [single] =
      some ⟨ceilDiv (plane f c).1 blockSide * ceilDiv (plane f c).2 blockSide, [1]⟩ := by
  rw [ofScan?, if_neg (by omega), hfound]
  rfl

theorem ofScan?_several (hwidth : 1 ≤ f.width) (hheight : 1 ≤ f.height)
    (hfound : components.map (fun c => f.find? c.id) = found.map some) (h : 2 ≤ found.length) :
    ofScan? f components =
      some ⟨ceilDiv f.width (blockSide * f.maxHorizontal) *
        ceilDiv f.height (blockSide * f.maxVertical),
        found.map fun c => c.horizontal * c.vertical⟩ := by
  have hlength := congrArg List.length hfound
  rw [List.length_map, List.length_map] at hlength
  have hseveral : ∀ single, components ≠ [single] := by
    rintro single rfl
    rw [List.length_singleton] at hlength
    omega
  rw [ofScan?, if_neg (by omega), mapM_eq_some hfound]
  · rfl
  · exact hseveral

theorem mem_of_found (hfound : components.map (fun c => f.find? c.id) = found.map some)
    {c : FrameComponent} (hc : c ∈ found) : c ∈ f.components := by
  have hsome : some c ∈ components.map fun c => f.find? c.id := hfound ▸ List.mem_map_of_mem hc
  obtain ⟨s, -, hs⟩ := List.mem_map.mp hsome
  exact List.mem_of_find?_eq_some hs

end

/-- A scan of one component has a unit for every block of its plane. The units of several components
are a grid that is for each one of them the least that covers its plane. -/
theorem ofScan?_least_grid (f : Frame) (hwidth : 1 ≤ f.width) (hheight : 1 ≤ f.height)
    (hsampling : ∀ c ∈ f.components, 1 ≤ c.horizontal ∧ 1 ≤ c.vertical) {hmax vmax : Nat}
    (hhmax : IsGreatest {n | ∃ c ∈ f.components, c.horizontal = n} hmax)
    (hvmax : IsGreatest {n | ∃ c ∈ f.components, c.vertical = n} vmax)
    {components : List ScanComponent} {found : List FrameComponent}
    (hfound : components.map (fun c => f.find? c.id) = found.map some) :
    (∀ c, found = [c] → ofScan? f components =
      some ⟨ceilDiv (ceilDiv (f.width * c.horizontal) hmax) 8 *
        ceilDiv (ceilDiv (f.height * c.vertical) vmax) 8, [1]⟩) ∧
    (2 ≤ found.length → ∃ across down,
      ofScan? f components =
        some ⟨across * down, found.map fun c => c.horizontal * c.vertical⟩ ∧
      ∀ c ∈ found,
        IsLeast {n | ceilDiv (f.width * c.horizontal) hmax ≤ n * 8 * c.horizontal} across ∧
        IsLeast {n | ceilDiv (f.height * c.vertical) vmax ≤ n * 8 * c.vertical} down ∧
        ∀ columns rows, Covers columns rows c (ceilDiv (f.width * c.horizontal) hmax)
          (ceilDiv (f.height * c.vertical) vmax) ↔ across ≤ columns ∧ down ≤ rows) := by
  have hhpos : 1 ≤ hmax := by
    obtain ⟨c, hc, rfl⟩ := hhmax.1
    exact (hsampling c hc).1
  have hvpos : 1 ≤ vmax := by
    obtain ⟨c, hc, rfl⟩ := hvmax.1
    exact (hsampling c hc).2
  have hheq := Frame.maxHorizontal_eq hhpos hhmax
  have hveq := Frame.maxVertical_eq hvpos hvmax
  constructor
  · rintro c rfl
    obtain ⟨single, rest, rfl, hsingle, hrest⟩ := List.map_eq_cons_iff.mp hfound
    obtain rfl := List.map_eq_nil_iff.mp hrest
    rw [ofScan?_single hwidth hheight hsingle, plane, hheq, hveq]
    rfl
  · intro hseveral
    refine ⟨ceilDiv f.width (8 * hmax), ceilDiv f.height (8 * vmax), ?_, fun c hc => ?_⟩
    · rw [ofScan?_several hwidth hheight hfound hseveral, hheq, hveq]
      rfl
    · obtain ⟨hh, hv⟩ := hsampling c (mem_of_found hfound hc)
      refine ⟨isLeast_units hhpos hh, isLeast_units hvpos hv, fun columns rows => ?_⟩
      have hcolumns : 0 < ceilDiv (f.width * c.horizontal) hmax :=
        ceilDiv_pos (Nat.mul_pos hwidth hh) hhpos
      have hrows : 0 < ceilDiv (f.height * c.vertical) vmax :=
        ceilDiv_pos (Nat.mul_pos hheight hv) hvpos
      rw [covers_iff hcolumns hrows, forall_div_lt_iff hh, forall_div_lt_iff hv,
        ← units_le_iff hhpos hh, ← units_le_iff hvpos hv]
      rfl

def halvedChroma : Frame :=
  ⟨0xFFC0, .baseline, 8, 9, 17, [⟨1, 2, 2, 0⟩, ⟨2, 1, 1, 1⟩, ⟨3, 1, 1, 1⟩], []⟩

/-- Two units of 16 by 16 samples hold all three components. -/
theorem ofScan?_least_grid_halvedChroma :
    ∃ across down, ofScan? halvedChroma [⟨1, 0, 0⟩, ⟨2, 1, 1⟩, ⟨3, 1, 1⟩] =
        some ⟨across * down, [4, 1, 1]⟩ ∧
      IsLeast {n | ceilDiv (17 * 2) 2 ≤ n * 8 * 2} across ∧
      IsLeast {n | ceilDiv (9 * 2) 2 ≤ n * 8 * 2} down ∧ across * down = 2 := by
  have hhorizontal : ∀ c ∈ halvedChroma.components, c.horizontal ≤ 2 := by decide
  have hvertical : ∀ c ∈ halvedChroma.components, c.vertical ≤ 2 := by decide
  have hfound : [⟨1, 0, 0⟩, ⟨2, 1, 1⟩, ⟨3, 1, 1⟩].map
      (fun c : ScanComponent => halvedChroma.find? c.id) = halvedChroma.components.map some := rfl
  have htwo : ofScan? halvedChroma [⟨1, 0, 0⟩, ⟨2, 1, 1⟩, ⟨3, 1, 1⟩] = some ⟨2, [4, 1, 1]⟩ := by
    decide
  obtain ⟨-, hseveral⟩ := ofScan?_least_grid halvedChroma (by decide) (by decide) (by decide)
    ⟨⟨_, List.mem_cons_self, rfl⟩, fun n ⟨c, hc, hn⟩ => hn ▸ hhorizontal c hc⟩
    ⟨⟨_, List.mem_cons_self, rfl⟩, fun n ⟨c, hc, hn⟩ => hn ▸ hvertical c hc⟩ hfound
  obtain ⟨across, down, hlayout, hleast⟩ := hseveral (by decide)
  obtain ⟨hacross, hdown, -⟩ := hleast _ List.mem_cons_self
  have hunits := congrArg Layout.units (Option.some.inj (hlayout.symm.trans htwo))
  exact ⟨across, down, hlayout, hacross, hdown, hunits⟩

end Layout
end Jpeg
end ImageAudit
