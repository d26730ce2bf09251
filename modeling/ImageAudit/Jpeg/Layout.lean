import ImageAudit.Bytes.Arithmetic
import ImageAudit.Jpeg.Frame

/-! Minimum coded units. A scan of one component codes the blocks of that component one by one; a
scan of several interleaves them, each with as many blocks as its sampling factors ask for. -/
namespace ImageAudit.Jpeg

structure Layout where
  /-- Number of units. -/
  units : Nat
  /-- Blocks of each component in a unit. -/
  blocks : List Nat
deriving DecidableEq, Repr

namespace Layout

def blockSide : Nat := 8

def plane (f : Frame) (c : FrameComponent) : Nat × Nat :=
  (ceilDiv (f.width * c.horizontal) f.maxHorizontal, ceilDiv (f.height * c.vertical) f.maxVertical)

/-- The layout of a scan; there is none for an empty image or an unknown component. -/
def ofScan? (f : Frame) (components : List ScanComponent) : Option Layout :=
  if f.width = 0 ∨ f.height = 0 then none
  else match components with
    | [single] =>
      (f.find? single.id).map fun c =>
        let (width, height) := plane f c
        ⟨ceilDiv width blockSide * ceilDiv height blockSide, [1]⟩
    | _ =>
      (components.mapM fun c => f.find? c.id).map fun found =>
        ⟨ceilDiv f.width (blockSide * f.maxHorizontal) *
            ceilDiv f.height (blockSide * f.maxVertical),
          found.map fun c => c.horizontal * c.vertical⟩

end Layout
end ImageAudit.Jpeg
