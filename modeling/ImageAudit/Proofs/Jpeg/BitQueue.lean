import ImageAudit.Proofs.Jpeg.FewestBits

/-! A bit reader as a queue. Whatever calls are made, the bits of the bytes that were fetched are
taken or dropped one after another, and a call that finds too few of them takes them all and fails.
Only a restart marker that is called for lets the queue go on behind a marker. -/
namespace ImageAudit.Jpeg.BitReader

inductive Call where
  | read (k : Read)
  | restart (expected : Fin 8)

def Call.apply (r : BitReader) : Call → Answer × BitReader
  | .read k => k.apply r
  | .restart expected =>
    match r.restart expected with
    | (.ok (), s) => (.restarted, s)
    | (.error e, s) => (.refused e, s)

def run : List Call → BitReader → List Answer × BitReader
  | [], r => ([], r)
  | c :: calls, r =>
    let (answer, s) := c.apply r
    let (answers, t) := run calls s
    (answer :: answers, t)

def restartBytes (number : Fin 8) : List UInt8 := [0xFF, UInt8.ofNat (0xD0 + number)]

/-- A restart drops the pending bits and takes the marker that is called for, if it stands in front
of the bytes that are not fetched yet. Otherwise no byte is passed. -/
inductive Restarts (expected : Fin 8) (r : BitReader) : Answer → Option (Fin 8) → BitReader → Prop
  | taken {rest : List UInt8} (h : r.rest = restartBytes expected ++ rest) :
    Restarts expected r .restarted (some expected) ⟨rest, r.position + 2, []⟩
  | unexpected {found : Fin 8} (h : restartBytes found <+: r.rest) (hfound : found ≠ expected) :
    Restarts expected r (.refused (.unexpected found r.position expected)) none
      ⟨r.rest, r.position, []⟩
  | missing (h : ∀ found : Fin 8, ¬ restartBytes found <+: r.rest) :
    Restarts expected r (.refused (.missing expected r.position)) none ⟨r.rest, r.position, []⟩

inductive Use where
  | taken (bits : List Bool)
  /-- The bits that are dropped, and the marker that is taken. -/
  | restart (dropped : List Bool) (marker : Option (Fin 8))

/-- What calls on `r` answer and use up until `t` is reached. -/
inductive Runs : List Call → BitReader → List Answer → List Use → BitReader → Prop
  | nil (r : BitReader) : Runs [] r [] [] r
  | read {k : Read} {r s t : BitReader} {answer : Answer} {taken : List Bool} {calls : List Call}
    {answers : List Answer} {uses : List Use} (h : Reads k r answer taken s)
    (hrest : Runs calls s answers uses t) :
    Runs (.read k :: calls) r (answer :: answers) (.taken taken :: uses) t
  | restart {expected : Fin 8} {r s t : BitReader} {answer : Answer} {marker : Option (Fin 8)}
    {calls : List Call} {answers : List Answer} {uses : List Use}
    (h : Restarts expected r answer marker s) (hrest : Runs calls s answers uses t) :
    Runs (.restart expected :: calls) r (answer :: answers) (.restart r.pending marker :: uses) t

variable {r s t : BitReader} {k : Read} {answer : Answer} {taken : List Bool}

theorem toNat_restart (number : Fin 8) : (UInt8.ofNat (0xD0 + number)).toNat = 0xD0 + number := by
  rw [UInt8.toNat_ofNat']
  omega

/-- Which of the restart markers has this second byte. -/
theorem isRestart_iff_exists {second : UInt8} :
    MarkerId.isRestart (0xFF00 + second.toNat) = true ↔
      ∃ number : Fin 8, second = UInt8.ofNat (0xD0 + number) := by
  rw [MarkerId.isRestart_iff]
  constructor
  · rintro ⟨hle, hle'⟩
    refine ⟨⟨second.toNat - 0xD0, by omega⟩, UInt8.toNat_inj.mp ?_⟩
    rw [toNat_restart]
    dsimp only
    omega
  · rintro ⟨number, rfl⟩
    rw [toNat_restart]
    omega

/-- In front of a restart marker its number decides. -/
theorem restart_of_marker {number : Fin 8} {rest : List UInt8}
    (h : r.rest = restartBytes number ++ rest) (expected : Fin 8) :
    r.restart expected = if number = expected then (.ok (), ⟨rest, r.position + 2, []⟩)
      else (.error (.unexpected number r.position expected), ⟨r.rest, r.position, []⟩) := by
  have hbytes : r.rest = 0xFF :: UInt8.ofNat (0xD0 + number) :: rest := h
  have hmarker := isRestart_iff_exists.mpr ⟨number, rfl⟩
  rw [restart, hbytes]
  refine (if_pos hmarker).trans ?_
  rw [toNat_restart, Nat.add_sub_cancel_left]
  simp only [Fin.ext_iff]

/-- Without a restart marker there is nothing to take. -/
theorem restart_of_missing (h : ∀ found : Fin 8, ¬ restartBytes found <+: r.rest)
    (expected : Fin 8) :
    r.restart expected = (.error (.missing expected r.position), ⟨r.rest, r.position, []⟩) := by
  rw [restart]
  dsimp only
  split
  · next second rest hrest =>
    refine if_neg fun hmarker => ?_
    obtain ⟨number, rfl⟩ := isRestart_iff_exists.mp hmarker
    exact h number ⟨rest, hrest.symm⟩
  · rfl

/-- A restart takes its marker, or it names what stands there. -/
theorem apply_restarts (expected : Fin 8) (r : BitReader) :
    ∃ marker, Restarts expected r ((Call.restart expected).apply r).1 marker
      ((Call.restart expected).apply r).2 := by
  rw [Call.apply]
  by_cases hmarker : ∃ found, restartBytes found <+: r.rest
  · obtain ⟨found, rest, hrest⟩ := hmarker
    rw [restart_of_marker hrest.symm]
    by_cases hfound : found = expected
    · subst hfound
      rw [if_pos rfl]
      exact ⟨some found, .taken hrest.symm⟩
    · rw [if_neg hfound]
      exact ⟨none, .unexpected ⟨rest, hrest⟩ hfound⟩
  · have hnone := not_exists.mp hmarker
    rw [restart_of_missing hnone]
    exact ⟨none, .missing hnone⟩

theorem run_runs (calls : List Call) (r : BitReader) :
    ∃ uses, Runs calls r (run calls r).1 uses (run calls r).2 := by
  induction calls generalizing r with
  | nil => exact ⟨[], .nil r⟩
  | cons call calls ih =>
    obtain ⟨uses, hrest⟩ := ih (call.apply r).2
    cases call with
    | read k =>
      obtain ⟨taken, h⟩ := apply_reads k r
      exact ⟨.taken taken :: uses, .read h hrest⟩
    | restart expected =>
      obtain ⟨marker, h⟩ := apply_restarts expected r
      exact ⟨.restart r.pending marker :: uses, .restart h hrest⟩

inductive Piece where
  | byte (b : UInt8)
  | marker (number : Fin 8)

def Piece.stored : Piece → List UInt8
  | .byte b => stuff [b]
  | .marker number => restartBytes number

inductive Token where
  | bit (value : Bool)
  | marker (number : Fin 8)

def Piece.tokens : Piece → List Token
  | .byte b => (bits b).map .bit
  | .marker number => [.marker number]

def Use.tokens : Use → List Token
  | .taken bits => bits.map .bit
  | .restart dropped marker => dropped.map .bit ++ marker.toList.map .marker

/-- Between two readers the pieces are fetched, and what they hold is used up in order as far as it
is no longer pending. -/
structure Passes (pieces : List Piece) (uses : List Use) (r t : BitReader) : Prop where
  rest : r.rest = pieces.flatMap Piece.stored ++ t.rest
  position : t.position = r.position + (pieces.flatMap Piece.stored).length
  tokens : r.pending.map .bit ++ pieces.flatMap Piece.tokens =
    uses.flatMap Use.tokens ++ t.pending.map .bit

namespace Passes

variable {pieces more : List Piece} {uses later : List Use}

protected theorem refl (r : BitReader) : Passes [] [] r r :=
  ⟨rfl, rfl, List.append_nil _⟩

theorem append (h : Passes pieces uses r s) (hmore : Passes more later s t) :
    Passes (pieces ++ more) (uses ++ later) r t where
  rest := by rw [List.flatMap_append, List.append_assoc, ← hmore.rest, h.rest]
  position := by
    rw [List.flatMap_append, List.length_append, hmore.position, h.position, Nat.add_assoc]
  tokens := by
    rw [List.flatMap_append, List.flatMap_append, ← List.append_assoc, h.tokens, List.append_assoc,
      List.append_assoc, hmore.tokens]

/-- Bits that are taken come from the bytes that are fetched for them. -/
theorem of_takes (h : Takes taken r s) : ∃ pieces, Passes pieces [.taken taken] r s := by
  obtain ⟨bytes, hspans⟩ := takes_iff.mp h
  have hstored : (bytes.map Piece.byte).flatMap Piece.stored = stuff bytes := by
    rw [List.flatMap_map, stuff]
    refine congrArg (fun f => bytes.flatMap f) (funext fun b => ?_)
    rw [Piece.stored, stuff, List.flatMap_singleton]
  have htokens : (bytes.map Piece.byte).flatMap Piece.tokens =
      (bytes.flatMap bits).map .bit := by
    rw [List.flatMap_map, List.map_flatMap]
    rfl
  refine ⟨bytes.map .byte, hstored ▸ hspans.rest, hstored ▸ hspans.position, ?_⟩
  rw [htokens, ← List.map_append, hspans.bits, List.map_append, List.flatMap_singleton]
  rfl

theorem of_restarts {expected : Fin 8} {marker : Option (Fin 8)}
    (h : Restarts expected r answer marker s) :
    ∃ pieces, Passes pieces [.restart r.pending marker] r s := by
  cases h with
  | taken hrest =>
    refine ⟨[.marker expected], ?_, rfl, ?_⟩
    · rw [hrest, List.flatMap_singleton]
      rfl
    · rw [List.flatMap_singleton, List.flatMap_singleton]
      exact (List.append_nil _).symm
  | unexpected => exact ⟨[], rfl, rfl, by simp [Use.tokens]⟩
  | missing => exact ⟨[], rfl, rfl, by simp [Use.tokens]⟩

end Passes

theorem Runs.exists_passes {calls : List Call} {answers : List Answer} {uses : List Use}
    (h : Runs calls r answers uses t) : ∃ pieces, Passes pieces uses r t := by
  induction h with
  | nil r => exact ⟨[], .refl r⟩
  | read h _ ih =>
    obtain ⟨pieces, hpieces⟩ := Passes.of_takes h.takes
    obtain ⟨more, hmore⟩ := ih
    exact ⟨pieces ++ more, hpieces.append hmore⟩
  | restart h _ ih =>
    obtain ⟨pieces, hpieces⟩ := Passes.of_restarts h
    obtain ⟨more, hmore⟩ := ih
    exact ⟨pieces ++ more, hpieces.append hmore⟩

theorem pending_lt_of_takes (h : Takes taken r s) (hr : r.pending.length < 8) :
    s.pending.length < 8 := by
  obtain ⟨bytes, hspans⟩ := takes_iff.mp h
  cases bytes with
  | nil =>
    have hlength := congrArg List.length hspans.bits
    rw [List.flatMap_nil, List.append_nil, List.length_append] at hlength
    omega
  | cons b bytes => exact hspans.last (List.cons_ne_nil b bytes)

/-- Less than a byte is pending. -/
theorem Runs.pending_lt {calls : List Call} {answers : List Answer} {uses : List Use}
    (h : Runs calls r answers uses t) (hr : r.pending.length < 8) : t.pending.length < 8 := by
  induction h with
  | nil r => exact hr
  | read h _ ih => exact ih (pending_lt_of_takes h.takes hr)
  | restart h _ ih => exact ih (by cases h <;> exact Nat.succ_pos 7)

/-- Bits that are pending are the last ones of the byte that was fetched last. -/
theorem exists_last_byte {pieces : List Piece} {front : List Token} {pending : List Bool}
    (h : pieces.flatMap Piece.tokens = front ++ pending.map .bit) (hlt : pending.length < 8) :
    pending = [] ∨ ∃ before b, pieces = before ++ [.byte b] ∧ pending <:+ bits b := by
  rcases List.eq_nil_or_concat pieces with rfl | ⟨before, piece, rfl⟩
  · exact .inl (List.map_eq_nil_iff.mp (List.append_eq_nil_iff.mp h.symm).2)
  rw [List.concat_eq_append] at h ⊢
  rw [List.flatMap_append, List.flatMap_singleton] at h
  cases piece with
  | byte b =>
    refine .inr ⟨before, b, rfl, ?_⟩
    have hbits : (bits b).map Token.bit <:+ front ++ pending.map .bit := ⟨_, h⟩
    obtain ⟨part, hpart, heq⟩ := List.suffix_map_iff.mp
      (List.suffix_of_suffix_length_le (List.suffix_append _ _) hbits (by simp; omega))
    rwa [(List.map_inj_right fun _ _ => Token.bit.inj).mp heq]
  | marker number =>
    -- behind a marker no bit was fetched that could be pending
    refine .inl ?_
    rcases List.eq_nil_or_concat pending with hnil | ⟨bits, bit, rfl⟩
    · exact hnil
    · rw [List.concat_eq_append, List.map_append, ← List.append_assoc] at h
      exact absurd (List.append_inj_right' h rfl) (by simp [Piece.tokens])

/-- Only a marker that is taken brings new bits. -/
theorem Runs.readable_nil {calls : List Call} {answers : List Answer} {uses : List Use}
    (h : Runs calls r answers uses t) (hr : r.readable = []) (hno : .restarted ∉ answers) :
    t.readable = [] := by
  induction h with
  | nil r => exact hr
  | read h _ ih =>
    refine ih ?_ (List.not_mem_of_not_mem_cons hno)
    rw [h.readable_eq, hr, List.drop_nil]
  | restart h _ ih =>
    refine ih ?_ (List.not_mem_of_not_mem_cons hno)
    obtain ⟨_, hbytes⟩ := List.append_eq_nil_iff.mp hr
    cases h with
    | taken => exact absurd List.mem_cons_self hno
    | unexpected => exact hbytes
    | missing => exact hbytes

/-- Reads fail where the data end and only there, and they go on failing until a marker is taken. -/
structure FailsAtEnd (k : Read) (r : BitReader) : Prop where
  iff : (k.apply r).1 = .failed .endOfData ↔
    ∀ word other, word <+: r.readable → ¬ k.Serves word other
  used_up : (k.apply r).1 = .failed .endOfData → (k.apply r).2.readable = []
  persists : (k.apply r).1 = .failed .endOfData →
    ∀ calls (next : Read), .restarted ∉ (run calls (k.apply r).2).1 → next ≠ .receive 0 →
      (next.apply (run calls (k.apply r).2).2).1 = .failed .endOfData

theorem failsAtEnd (k : Read) (r : BitReader) : FailsAtEnd k r where
  iff := apply_eq_endOfData_iff
  used_up := readable_of_endOfData
  persists hfailed calls next hno hnext := by
    obtain ⟨uses, hruns⟩ := run_runs calls (k.apply r).2
    exact apply_of_readable_nil (hruns.readable_nil (readable_of_endOfData hfailed) hno) hnext

/-- The marker in front of the bytes that are not fetched decides what a restart does. The pending
bits are dropped in any case. -/
structure MarkerDecides (expected : Fin 8) (r : BitReader) (answer : Answer) (s : BitReader) :
    Prop where
  restarted_iff : answer = .restarted ↔ restartBytes expected <+: r.rest
  unexpected_iff (found : Fin 8) : answer = .refused (.unexpected found r.position expected) ↔
    restartBytes found <+: r.rest ∧ found ≠ expected
  missing_iff : answer = .refused (.missing expected r.position) ↔
    ∀ found, ¬ restartBytes found <+: r.rest
  passed : answer = .restarted → s = ⟨r.rest.drop 2, r.position + 2, []⟩
  kept : answer ≠ .restarted → s = ⟨r.rest, r.position, []⟩

theorem eq_of_restartBytes {number other : Fin 8} {rest : List UInt8}
    (h : restartBytes number <+: rest) (hother : restartBytes other <+: rest) :
    number = other := by
  have heq : restartBytes number = restartBytes other :=
    (List.prefix_of_prefix_length_le h hother (Nat.le_refl 2)).eq_of_length rfl
  have hsecond := congrArg UInt8.toNat (List.cons.inj (List.cons.inj heq).2).1
  rw [toNat_restart, toNat_restart] at hsecond
  exact Fin.ext (Nat.add_left_cancel hsecond)

theorem Restarts.markerDecides {expected : Fin 8} {marker : Option (Fin 8)}
    (h : Restarts expected r answer marker s) : MarkerDecides expected r answer s := by
  cases h with
  | @taken rest hrest =>
    have hstarts : restartBytes expected <+: r.rest := ⟨rest, hrest.symm⟩
    constructor
    case restarted_iff => exact iff_of_true rfl hstarts
    case unexpected_iff =>
      refine fun found => iff_of_false (by simp) fun hfound => ?_
      exact hfound.2 (eq_of_restartBytes hfound.1 hstarts)
    case missing_iff => exact iff_of_false (by simp) fun hnone => hnone expected hstarts
    case passed =>
      intro _
      rw [hrest]
      rfl
    case kept => exact fun hne => absurd rfl hne
  | @unexpected found hstarts hfound =>
    constructor
    case restarted_iff =>
      exact iff_of_false (by simp) fun htaken => hfound (eq_of_restartBytes hstarts htaken)
    case unexpected_iff =>
      refine fun other => ⟨fun heq => ?_, fun hother => ?_⟩
      · obtain rfl : found = other := by simpa [Fin.ext_iff] using heq
        exact ⟨hstarts, hfound⟩
      · rw [eq_of_restartBytes hstarts hother.1]
    case missing_iff => exact iff_of_false (by simp) fun hnone => hnone found hstarts
    case passed => exact fun htaken => by cases htaken
    case kept => exact fun _ => rfl
  | missing hnone =>
    constructor
    case restarted_iff => exact iff_of_false (by simp) (hnone expected)
    case unexpected_iff =>
      exact fun found => iff_of_false (by simp) fun hfound => hnone found hfound.1
    case missing_iff => exact iff_of_true rfl hnone
    case passed => exact fun htaken => by cases htaken
    case kept => exact fun _ => rfl

def reached (data : ByteArray) (offset : Nat) (calls : List Call) : BitReader :=
  (run calls (ofBytes data offset)).2

end ImageAudit.Jpeg.BitReader
