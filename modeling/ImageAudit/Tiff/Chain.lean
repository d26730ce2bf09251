import ImageAudit.Tiff.Visited

/-! The chain of main directories. Every directory of it uses up an offset of the file, so it comes
to an end. -/
namespace ImageAudit.Tiff.Survey

def walk (c : Context) (offset : Nat) (s : Survey) : Step Unit :=
  if offset = 0 then .ok () s
  else
    match h : s.readMain c offset with
    | .error cause t => .error cause t
    | .ok none t => .ok () t
    | .ok (some tree) t =>
      have := unvisited_readMain h
      walk c tree.directory.nextOffset (t.addMain tree)
termination_by s.unvisited c.source.length

end ImageAudit.Tiff.Survey
