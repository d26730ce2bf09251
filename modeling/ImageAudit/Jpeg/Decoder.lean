import ImageAudit.Jpeg.Stream
import ImageAudit.Settings

/-! The JPEG decoder. The marker loop ends because every marker or fill byte that it passes lies
inside the source and moves it on. -/
namespace ImageAudit.Jpeg

namespace Marker

theorem le_length_of_readWord {source : Source} {offset word : Nat}
    (h : readWord source offset = .ok word) : offset + markerSize ≤ source.length := by
  unfold readWord at h
  split at h
  · exact nomatch h
  · next hs => exact (Source.hasSection_iff.1 (by simpa using hs)).2

theorem lt_of_readSegment {source : Source} {id offset number next : Nat} {m : Marker}
    (h : readSegment source id offset number = .ok (.marker m next)) : offset < next := by
  have hpos : 0 < markerSize := by decide
  simp only [readSegment] at h
  split at h
  · exact nomatch h
  · split at h
    · exact nomatch h
    · split at h
      · exact nomatch h
      · simp only [Except.ok.injEq, Found.marker.injEq] at h
        omega

theorem lt_of_readMarker {source : Source} {id offset number next : Nat} {m : Marker}
    (h : readMarker source id offset number = .ok (.marker m next)) : offset < next := by
  have hpos : 0 < markerSize := by decide
  unfold readMarker at h
  split at h
  · exact nomatch h
  · split at h
    · exact nomatch h
    · split at h
      · exact lt_of_readSegment h
      · simp only [Except.ok.injEq, Found.marker.injEq] at h
        omega

theorem lt_length_of_readAt {source : Source} {offset number : Nat} {found : Found}
    (h : readAt source offset number = .ok found) : offset < source.length := by
  have hpos : 0 < markerSize := by decide
  unfold readAt at h
  split at h
  · exact nomatch h
  · next hw =>
    have := le_length_of_readWord hw
    omega

theorem lt_of_readAt {source : Source} {offset number next : Nat} {m : Marker}
    (h : readAt source offset number = .ok (.marker m next)) : offset < next := by
  unfold readAt at h
  split at h
  · exact nomatch h
  · split at h
    · exact nomatch h
    · exact lt_of_readMarker h

end Marker

namespace Scanner

theorem le_of_leave {source : Source} {s : Stream} {m : Marker} {next : Nat} {t : Scanner}
    (h : leave source s m next = .advance t) : t.offset = next := by
  simp only [leave] at h
  split at h
  · exact nomatch h
  · split at h
    · split at h <;> exact nomatch h
    · obtain rfl := Outcome.advance.inj h
      rfl

theorem le_of_enter {source : Source} {s : Stream} {m : Marker} {next : Nat} {t : Scanner}
    (h : enter source s m next = .advance t) : next ≤ t.offset := by
  simp only [enter] at h
  split at h
  · split at h
    · exact nomatch h
    · have := le_of_leave h
      omega
  · have := le_of_leave h
    omega

/-- A step that does not end the loop starts inside the source and moves on. -/
theorem offset_of_step {source : Source} {s t : Scanner} (h : step source s = .advance t) :
    s.offset < source.length ∧ s.offset < t.offset := by
  unfold step at h
  split at h
  · exact nomatch h
  · next hr =>
    obtain rfl := Outcome.advance.inj h
    exact ⟨Marker.lt_length_of_readAt hr, Nat.lt_succ_self _⟩
  · next hr =>
    have := Marker.lt_of_readAt hr
    have := le_of_enter h
    exact ⟨Marker.lt_length_of_readAt hr, by omega⟩

def run (source : Source) (s : Scanner) : Stream :=
  match h : step source s with
  | .finish stream => stream
  | .advance t =>
    have := offset_of_step h
    run source t
termination_by source.length - s.offset

end Scanner

namespace Stream

def identify (s : Stream) (source : Source) : Stream :=
  match source.read 0 markerSize with
  | .error e => s.report (.cannotReadHeader e)
  | .ok bytes =>
    let id := ByteOrder.bigEndian.decode bytes.data.toList
    if !MarkerId.isMarker id then s.report (.invalidMarker (MarkerId.name id) 0)
    else if id != MarkerId.startOfImage then s.report (.firstMarkerNotStart (MarkerId.name id))
    else
      { s with
        identified := true
        markers := s.markers.push ⟨id, none, 0, 1, .empty markerSize⟩ }

def check (s : Stream) (source : Source) : Stream := Scanner.run source ⟨markerSize, 2, s⟩

end Stream

structure Decoder where
  settings : Settings
  embedded : Bool
  stream : Stream

namespace Decoder

def new (settings : Settings) (embedded : Bool) : Decoder := ⟨settings, embedded, .empty embedded⟩

def reset (d : Decoder) : Decoder := { d with stream := .empty d.embedded }

def identify (d : Decoder) (source : Source) : Decoder :=
  { d with stream := d.reset.stream.identify source }

def process (d : Decoder) (source : Source) : Decoder :=
  let d := d.identify source
  if !d.stream.identified || d.settings.isIdentify then d
  else { d with stream := d.stream.check source }

def shortName : String := "JPEG"

def longName : String := "Joint Photographic Experts Group"

def extensions : List String := ["jpg", "jpeg"]

end Decoder
end ImageAudit.Jpeg
