import ImageAudit.Diagnostics.Event

/-! XMP packets. A packet is framed by a header and, behind it, a trailer. -/
namespace ImageAudit.Xmp

inductive Finding where
  | noHeader
  | noTrailer
deriving DecidableEq, Repr

namespace Finding

/-- Without a header there is no packet; a missing trailer is only suspicious. -/
def severity : Finding → Severity
  | .noHeader => .error
  | .noTrailer => .warning

def key : Finding → String
  | .noHeader => "xmp.error.unable_to_find_xpacket"
  | .noTrailer => "xmp.warn.missing_xpacket_end"

end Finding

def header : List UInt8 := "<?xpacket begin=".toUTF8.data.toList

def trailer : List UInt8 := "<?xpacket end=".toUTF8.data.toList

def after? (pattern : List UInt8) : List UInt8 → Option (List UInt8)
  | [] => if pattern.isEmpty then some [] else none
  | b :: rest =>
    if pattern.isPrefixOf (b :: rest) then some ((b :: rest).drop pattern.length)
    else after? pattern rest

def check (data : List UInt8) : List Finding :=
  match after? header data with
  | none => [.noHeader]
  | some rest => if (after? trailer rest).isSome then [] else [.noTrailer]

end ImageAudit.Xmp
