import ImageAudit.Bytes.Arithmetic

/-! Random-access inputs. A source claims a length and answers reads by offset; a read may fail
even inside the claimed length. -/
namespace ImageAudit

inductive ReadError where
  | cannotOpen (path reason : String)
  | outOfRange (offset requested length : Nat)
  | failed (offset : Nat) (reason : String)
deriving DecidableEq, Repr

def ReadError.message : ReadError → String
  | .cannotOpen path reason => "Cannot open " ++ path ++ ": " ++ reason
  | .outOfRange offset requested length =>
    "Range out of bounds: requested " ++ toString requested ++ " bytes at offset " ++
      toString offset ++ ", size is " ++ toString length
  | .failed offset reason => "Read failed at offset " ++ toString offset ++ ": " ++ reason

/-- Whether `count` bytes at `offset` end inside a file of `length` bytes and within 64 bits. -/
def isSection (offset count length : Nat) : Bool :=
  decide (offset + count ≤ maxWord) && decide (offset + count ≤ length)

theorem isSection_iff {offset count length : Nat} :
    isSection offset count length = true ↔ offset + count ≤ maxWord ∧ offset + count ≤ length := by
  simp [isSection]

def isPosition (offset length : Nat) : Bool := decide (offset ≤ length)

/-- An input with a name, a claimed length and a way to get bytes of it. -/
structure Source where
  name : String
  length : Nat
  /-- Gets `count` bytes at `offset`, for a section of the claimed length. -/
  fetch : (offset count : Nat) → Except ReadError ByteArray
  /-- A fetch that succeeds inside the claimed length gets as many bytes as were asked for. -/
  size_fetch : ∀ {offset count bytes}, offset + count ≤ length →
    fetch offset count = .ok bytes → bytes.size = count

namespace Source

def hasSection (s : Source) (offset count : Nat) : Bool := isSection offset count s.length

/-- Reads exactly `count` bytes at `offset`; outside the claimed length this is refused. -/
def read (s : Source) (offset count : Nat) : Except ReadError ByteArray :=
  if s.hasSection offset count then s.fetch offset count
  else .error (.outOfRange offset count s.length)

theorem hasSection_iff {s : Source} {offset count : Nat} :
    s.hasSection offset count = true ↔ offset + count ≤ maxWord ∧ offset + count ≤ s.length :=
  isSection_iff

theorem size_read {s : Source} {offset count : Nat} {bytes : ByteArray}
    (h : s.read offset count = .ok bytes) : bytes.size = count := by
  unfold read at h
  split at h
  · next hs => exact s.size_fetch (hasSection_iff.1 hs).2 h
  · exact nomatch h

theorem le_of_read {s : Source} {offset count : Nat} {bytes : ByteArray}
    (h : s.read offset count = .ok bytes) : offset + count ≤ s.length := by
  unfold read at h
  split at h
  · next hs => exact (hasSection_iff.1 hs).2
  · exact nomatch h

def ofBytes (name : String) (data : ByteArray) : Source where
  name
  length := data.size
  fetch offset count := .ok (data.extract offset (offset + count))
  size_fetch := by
    intro offset count bytes hle h
    obtain rfl := Except.ok.inj h
    rw [ByteArray.size_extract]
    omega

/-- The bytes of `inner` from `start` on, addressed from zero. The window is not checked: where
it reaches past `inner`, reads fail as they do there. -/
def window (inner : Source) (start length : Nat) : Source where
  name := inner.name
  length
  fetch offset count := inner.read (start + offset) count
  size_fetch _ h := size_read h

/-- A source none of whose bytes can be had, such as a directory opened as a file. -/
def unreadable (name : String) (length : Nat) (reason : String) : Source where
  name
  length
  fetch offset count := if count = 0 then .ok .empty else .error (.failed offset reason)
  size_fetch := by
    intro offset count bytes _ h
    split at h
    · next hc =>
      obtain rfl := Except.ok.inj h
      exact hc.symm
    · exact nomatch h

end Source
end ImageAudit
