import ImageAudit.Jpeg.BitReader
import ImageAudit.Proofs.Checked.Jpeg.Huffman

/-! Reading bits through a position in the bytes and a buffer of eight bits, with operations that
can go wrong. What is left to be read is the same as for the reader of bytes and bits. -/
namespace ImageAudit.Jpeg

open Checked

structure BitCursor where
  data : ByteArray
  /-- File offset of the first byte. -/
  offset : Nat
  /-- Index of the next byte. -/
  position : Nat
  /-- The byte fetched last. -/
  buffer : Nat
  /-- How many of its bits are unread. -/
  bits : Nat

namespace BitCursor

def ofBytes (data : ByteArray) (offset : Nat) : BitCursor := ⟨data, offset, 0, 0, 0⟩

def reader (c : BitCursor) : BitReader where
  rest := c.data.data.toList.drop c.position
  position := c.offset + c.position
  pending := (List.range c.bits).map fun i => c.buffer.testBit (c.bits - 1 - i)

structure Sound (c : BitCursor) : Prop where
  position_le : c.position ≤ c.data.size
  end_lt : c.offset + c.data.size < maxWord
  bits_le : c.bits ≤ 8

def byte? (c : BitCursor) (i : Nat) : Option UInt8 := c.data.data.toList[i]?

def checkedNextByte (c : BitCursor) : Checked (Option UInt8 × BitCursor) :=
  match c.byte? c.position with
  | none => pure (none, c)
  | some b =>
    if b != 0xFF then do
      let position ← add maxWord c.position 1
      pure (some b, { c with position })
    else do
      let ahead ← add maxWord c.position 1
      match c.byte? ahead with
      | some 0 => do
        let position ← add maxWord c.position 2
        pure (some 0xFF, { c with position })
      | _ => pure (none, c)

def checkedShift (c : BitCursor) : Checked (Except BitError Bool × BitCursor) := do
  let bits ← sub c.bits 1
  let shifted ← shiftRight 32 c.buffer bits
  pure (.ok (1 &&& shifted != 0), { c with bits })

def checkedReadBit (c : BitCursor) : Checked (Except BitError Bool × BitCursor) :=
  if c.bits = 0 then do
    let (byte, c) ← c.checkedNextByte
    match byte with
    | none => pure (.error .endOfData, c)
    | some b => checkedShift { c with buffer := b.toNat, bits := 8 }
  else c.checkedShift

def checkedReceiveFrom : (n value : Nat) → BitCursor → Checked (Except BitError Nat × BitCursor)
  | 0, value, c => pure (.ok value, c)
  | n + 1, value, c => do
    let (bit, c) ← c.checkedReadBit
    match bit with
    | .ok bit => checkedReceiveFrom n ((2 * value + bit.toNat) % 0x10000) c
    | .error e => pure (.error e, c)

def checkedReceive (n : Nat) (c : BitCursor) : Checked (Except BitError Nat × BitCursor) :=
  checkedReceiveFrom n 0 c

def checkedDecodeFrom (t : Huffman.Table) :
    (turns length : Nat) → (code : Int) → BitCursor → Checked (Except BitError UInt8 × BitCursor)
  | 0, _, _, _ => throw .endless
  | turns + 1, length, code, c => do
    let most ← t.checkedMaxCode length
    if code ≤ most then do
      match ← t.checkedSymbol? length code with
      | some symbol => pure (.ok symbol, c)
      | none => pure (.error .invalidCode, c)
    else if length = Huffman.maxLength then pure (.error .invalidCode, c)
    else do
      let (bit, c) ← c.checkedReadBit
      match bit with
      | .ok bit => do
        let code ← fitSigned signedLong (2 * code + bit.toNat)
        let length ← add maxWord length 1
        checkedDecodeFrom t turns length code c
      | .error e => pure (.error e, c)

def checkedDecode (t : Huffman.Table) (c : BitCursor) :
    Checked (Except BitError UInt8 × BitCursor) := do
  let (bit, c) ← c.checkedReadBit
  match bit with
  | .ok bit => checkedDecodeFrom t Huffman.maxLength 1 bit.toNat c
  | .error e => pure (.error e, c)

def checkedRestart (expected : Nat) (c : BitCursor) :
    Checked (Except RestartError Unit × BitCursor) := do
  let c := { c with bits := 0 }
  let offset ← add maxWord c.offset c.position
  let ahead ← add maxWord c.position 1
  match c.byte? c.position, c.byte? ahead with
  | some 0xFF, some second =>
    if MarkerId.isRestart (0xFF00 + second.toNat) then do
      let found ← sub second.toNat 0xD0
      if found = expected then do
        let position ← add maxWord c.position 2
        pure (.ok (), { c with position })
      else pure (.error (.unexpected found offset expected), c)
    else pure (.error (.missing expected offset), c)
  | _, _ => pure (.error (.missing expected offset), c)

/-- Nothing goes wrong, and result and remaining bits are those of the reader. -/
def Follows {α : Type} (x : Checked (α × BitCursor)) (y : α × BitReader) : Prop :=
  ∃ a c, x = pure (a, c) ∧ y = (a, c.reader) ∧ c.Sound

variable {c : BitCursor}

theorem sound_ofBytes {data : ByteArray} {offset : Nat} (h : offset + data.size < maxWord) :
    (ofBytes data offset).Sound :=
  ⟨Nat.zero_le _, h, Nat.zero_le _⟩

theorem Sound.pure {α : Type} (h : c.Sound) (a : α) : Follows (pure (a, c)) (a, c.reader) :=
  ⟨a, c, rfl, rfl, h⟩

private theorem lt_of_byte? {i : Nat} {b : UInt8} (h : c.byte? i = some b) : i < c.data.size :=
  (List.getElem?_eq_some_iff.mp h).1

private theorem drop_of_byte? {i : Nat} {b : UInt8} (h : c.byte? i = some b) :
    c.data.data.toList.drop i = b :: c.data.data.toList.drop (i + 1) := by
  obtain ⟨hlt, hb⟩ := List.getElem?_eq_some_iff.mp h
  rw [List.drop_eq_getElem_cons hlt, hb]

private theorem drop_of_byte?_none {i : Nat} (h : c.byte? i = none) :
    c.data.data.toList.drop i = [] :=
  List.drop_eq_nil_of_le (List.getElem?_eq_none_iff.mp h)

private theorem pending_succ (buffer bits : Nat) :
    (List.range (bits + 1)).map (fun i => buffer.testBit (bits + 1 - 1 - i)) =
      buffer.testBit bits :: (List.range bits).map fun i => buffer.testBit (bits - 1 - i) := by
  rw [List.range_succ_eq_map, List.map_cons, List.map_map]
  congr 2
  funext i
  simp only [Function.comp_apply]
  congr 1
  omega

/-- A buffer that is not used up gives its next bit. -/
private theorem checkedShift_follows (h : c.Sound) (hbits : c.bits ≠ 0) :
    Follows c.checkedShift c.reader.readBit := by
  obtain ⟨data, offset, position, buffer, bits⟩ := c
  cases bits with
  | zero => exact absurd rfl hbits
  | succ bits =>
    have hle : bits + 1 ≤ 8 := h.bits_le
    rw [checkedShift, sub_eq (Nat.le_add_left 1 bits), pure_bind, shiftRight_eq (by omega),
      pure_bind]
    refine ⟨_, _, rfl, ?_, h.position_le, h.end_lt, by dsimp only; omega⟩
    rw [reader, pending_succ]
    rfl

/-- A fetched byte fills the buffer. -/
private theorem checkedNextByte_eq (h : c.Sound) :
    match c.reader.nextByte? with
    | none => c.checkedNextByte = pure (none, c)
    | some (b, rest, position) => ∃ d : BitCursor, c.checkedNextByte = pure (some b, d) ∧
        d.Sound ∧ d.data.data.toList.drop d.position = rest ∧ d.offset + d.position = position := by
  have hle := h.position_le
  have hend := h.end_lt
  rw [checkedNextByte, BitReader.nextByte?, reader]
  dsimp only
  cases hbyte : c.byte? c.position with
  | none =>
    rw [drop_of_byte?_none hbyte]
  | some b =>
    have hlt := lt_of_byte? hbyte
    rw [drop_of_byte? hbyte, add_eq (by omega)]
    dsimp only
    by_cases hmarker : (b != 0xFF) = true
    · rw [if_pos hmarker, if_pos hmarker]
      exact ⟨_, rfl, ⟨hlt, hend, h.bits_le⟩, rfl, (Nat.add_assoc _ _ _).symm⟩
    · rw [if_neg hmarker, if_neg hmarker, pure_bind]
      cases hnext : c.byte? (c.position + 1) with
      | none => rw [drop_of_byte?_none hnext]
      | some next =>
        have hlt' := lt_of_byte? hnext
        rw [drop_of_byte? hnext, add_eq (by omega)]
        by_cases hzero : next = 0
        · subst hzero
          exact ⟨_, rfl, ⟨hlt', hend, h.bits_le⟩, rfl, (Nat.add_assoc _ _ _).symm⟩
        · simp [hzero]

theorem checkedReadBit_follows (h : c.Sound) : Follows c.checkedReadBit c.reader.readBit := by
  rw [checkedReadBit]
  split
  · next hempty =>
    have hnext := checkedNextByte_eq h
    have hpending : c.reader.pending = [] := by rw [reader, hempty]; rfl
    rw [BitReader.readBit, hpending]
    cases hbyte : c.reader.nextByte? with
    | none =>
      rw [hbyte] at hnext
      dsimp only at hnext ⊢
      rw [hnext]
      exact h.pure _
    | some found =>
      obtain ⟨b, rest, position⟩ := found
      rw [hbyte] at hnext
      obtain ⟨d, hfetch, hd, rfl, rfl⟩ := hnext
      rw [hfetch, pure_bind]
      exact @checkedShift_follows { d with buffer := b.toNat, bits := 8 }
        ⟨hd.position_le, hd.end_lt, Nat.le_refl 8⟩ (Nat.succ_ne_zero 7)
  · next hbits => exact checkedShift_follows h hbits

/-- Bits shifted out at the top of sixteen do not matter. -/
private theorem checkedReceiveFrom_follows (h : c.Sound) (n value : Nat) :
    Follows (checkedReceiveFrom n (value % 0x10000) c)
      ((BitReader.receiveFrom n value c.reader).1.map (· % 0x10000),
        (BitReader.receiveFrom n value c.reader).2) := by
  induction n generalizing value c with
  | zero => exact h.pure _
  | succ n ih =>
    obtain ⟨result, d, hx, hy, hd⟩ := checkedReadBit_follows h
    rw [checkedReceiveFrom, hx, pure_bind, BitReader.receiveFrom, hy]
    cases result with
    | error e => exact hd.pure _
    | ok bit =>
      have hvalue : (2 * (value % 0x10000) + bit.toNat) % 0x10000 =
          (2 * value + bit.toNat) % 0x10000 := by omega
      dsimp only
      rw [hvalue]
      exact ih hd _

theorem checkedReceive_follows (h : c.Sound) (n : Nat) :
    Follows (checkedReceive n c) (c.reader.receive n) :=
  checkedReceiveFrom_follows h n 0

private theorem lookup_follows {t : Huffman.Table} (ht : t.Canonical) (h : c.Sound)
    {length code : Nat} (hcode : code < 0x80000000) :
    Follows (do
        match ← t.checkedSymbol? length code with
        | some symbol => pure (.ok symbol, c)
        | none => pure (.error .invalidCode, c))
      (BitReader.lookup t length code, c.reader) := by
  rw [Huffman.Table.checkedSymbol?_eq ht hcode, pure_bind, BitReader.lookup]
  cases t.symbol? length code <;> exact h.pure _

/-- A turn is taken for every bit that may follow, and one more. -/
private theorem checkedDecodeFrom_follows {t : Huffman.Table} (ht : t.Canonical) (h : c.Sound)
    {more length code : Nat} (hlength : length + more = Huffman.maxLength)
    (hcode : code < 1 <<< length) :
    Follows (checkedDecodeFrom t (more + 1) length code c)
      (BitReader.decodeFrom t more length code c.reader) := by
  have hlimit := Huffman.one_shiftLeft_le (show length ≤ Huffman.maxLength by omega)
  induction more generalizing length code c with
  | zero =>
    rw [checkedDecodeFrom, Huffman.Table.checkedMaxCode_eq ht, pure_bind, BitReader.decodeFrom]
    split
    · exact lookup_follows ht h (by omega)
    · rw [if_pos (show length = Huffman.maxLength from hlength)]
      exact h.pure _
  | succ more ih =>
    rw [checkedDecodeFrom, Huffman.Table.checkedMaxCode_eq ht, pure_bind, BitReader.decodeFrom]
    split
    · exact lookup_follows ht h (by omega)
    · obtain ⟨result, d, hx, hy, hd⟩ := checkedReadBit_follows h
      rw [if_neg (show length ≠ Huffman.maxLength by omega), hx, pure_bind]
      dsimp only
      rw [hy]
      cases result with
      | error e => exact hd.pure _
      | ok bit =>
        have hbit := Bool.toNat_le bit
        have hlong : signedLong = 0x80000000 := rfl
        have hbits : Huffman.maxLength = 16 := rfl
        have hword : maxWord = 0xFFFFFFFFFFFFFFFF := rfl
        have hnext : 2 * code + bit.toNat < 1 <<< (length + 1) := by
          rw [Nat.shiftLeft_succ]
          omega
        dsimp only
        rw [fitSigned_eq (by omega) (by omega), pure_bind, add_eq (by omega), pure_bind]
        exact ih hd (by omega) hnext (Huffman.one_shiftLeft_le (by omega))

theorem checkedDecode_follows {t : Huffman.Table} (ht : t.Canonical) (h : c.Sound) :
    Follows (checkedDecode t c) (c.reader.decode t) := by
  obtain ⟨result, d, hx, hy, hd⟩ := checkedReadBit_follows h
  rw [checkedDecode, hx, pure_bind, BitReader.decode, hy]
  cases result with
  | error e => exact hd.pure _
  | ok bit => exact checkedDecodeFrom_follows ht hd rfl (by cases bit <;> decide)

theorem checkedRestart_follows (h : c.Sound) (expected : Nat) :
    Follows (checkedRestart expected c) (c.reader.restart expected) := by
  obtain ⟨data, offset, position, buffer, bits⟩ := c
  have hend : offset + data.size < maxWord := h.end_lt
  have hle : position ≤ data.size := h.position_le
  have hfail : ∀ result : Except RestartError Unit, Follows
      (pure (result, (⟨data, offset, position, buffer, 0⟩ : BitCursor)))
      (result, ⟨data.data.toList.drop position, offset + position, []⟩) :=
    fun result => Sound.pure ⟨hle, hend, Nat.zero_le _⟩ result
  rw [checkedRestart, add_eq (by dsimp only; omega), pure_bind, add_eq (by dsimp only; omega),
    pure_bind, BitReader.restart, reader]
  dsimp only
  cases hbyte : byte? ⟨data, offset, position, buffer, 0⟩ position with
  | none =>
    rw [drop_of_byte?_none hbyte] at hfail ⊢
    exact hfail _
  | some b =>
    by_cases hmarker : b = 0xFF
    · subst hmarker
      cases hnext : byte? ⟨data, offset, position, buffer, 0⟩ (position + 1) with
      | none =>
        rw [drop_of_byte? hbyte, drop_of_byte?_none hnext] at hfail ⊢
        exact hfail _
      | some second =>
        have hlt : position + 1 < data.size := lt_of_byte? hnext
        rw [drop_of_byte? hbyte, drop_of_byte? hnext] at hfail ⊢
        simp only
        split
        · next hrestart =>
          have hfirst : 0xD0 ≤ second.toNat := by
            have hle : 0xFFD0 ≤ 0xFF00 + second.toNat :=
              of_decide_eq_true (Bool.and_eq_true_iff.mp hrestart).1
            omega
          rw [sub_eq hfirst, pure_bind]
          split
          · rw [add_eq (by omega), pure_bind]
            exact ⟨_, _, rfl, rfl, hlt, hend, Nat.zero_le _⟩
          · exact hfail _
        · exact hfail _
    · rw [drop_of_byte? hbyte] at hfail ⊢
      split
      · next heq _ => exact absurd (Option.some.inj heq) hmarker
      · split
        · next heq => exact absurd (List.cons.inj heq).1 hmarker
        · exact hfail _

end BitCursor

def checkedExtend (value size : Nat) : Checked Int :=
  if size = 0 then pure 0
  else do
    let place ← sub size 1
    let half ← power 32 place
    if value < half then do
      let whole ← power 32 size
      let below ← fitSigned signedLong ((value : Int) - whole)
      fitSigned signedLong (below + 1)
    else pure value

theorem checkedExtend_eq {value size : Nat} (hvalue : value < 0x10000)
    (hsize : size ≤ Huffman.maxLength) : checkedExtend value size = pure (extend value size) := by
  rw [checkedExtend, extend]
  split
  · rfl
  · have hbits : Huffman.maxLength = 16 := rfl
    have hlong : signedLong = 0x80000000 := rfl
    have hwhole := Huffman.one_shiftLeft_le hsize
    rw [sub_eq (by omega), pure_bind, power_eq (by omega), pure_bind]
    split
    · rw [power_eq (by omega), pure_bind]
      generalize 1 <<< size = whole at hwhole ⊢
      rw [fitSigned_eq (by omega) (by omega), pure_bind,
        fitSigned_eq (by omega) (by omega)]
    · rfl

end ImageAudit.Jpeg
