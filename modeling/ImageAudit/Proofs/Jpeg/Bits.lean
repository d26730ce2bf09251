import ImageAudit.Jpeg.BitReader
import ImageAudit.Proofs.Jpeg.Huffman.Codebook

/-! Bits of entropy-coded data. A reader takes the bits of stuffed bytes one after another, and
whatever reads several bits succeeds exactly on the bits that it stands for. -/
namespace ImageAudit.Jpeg

/-- Bytes as entropy-coded data holds them: every `FF` is followed by a zero. -/
def stuff (bytes : List UInt8) : List UInt8 :=
  bytes.flatMap fun b => if b = 0xFF then [0xFF, 0] else [b]

namespace BitReader

/-- Reading bit by bit gives `bits` and leads from one reader to another. -/
def Takes : (bits : List Bool) → BitReader → BitReader → Prop
  | [], r, t => t = r
  | b :: bits, r, t => ∃ s, r.readBit = (.ok b, s) ∧ Takes bits s t

theorem takes_append {first second : List Bool} {r t : BitReader} :
    Takes (first ++ second) r t ↔ ∃ s, Takes first r s ∧ Takes second s t := by
  induction first generalizing r with
  | nil =>
    constructor
    · exact fun h => ⟨r, rfl, h⟩
    · intro hcoded
      rcases hcoded with ⟨s, rfl, h⟩
      exact h
  | cons b first ih =>
    constructor
    · intro hcoded
      rcases hcoded with ⟨s, hb, h⟩
      obtain ⟨u, hfirst, hsecond⟩ := ih.mp h
      exact ⟨u, ⟨s, hb, hfirst⟩, hsecond⟩
    · intro hcoded
      rcases hcoded with ⟨u, ⟨s, hb, hfirst⟩, hsecond⟩
      exact ⟨s, hb, ih.mpr ⟨u, hfirst, hsecond⟩⟩

@[simp] theorem length_bits (b : UInt8) : (bits b).length = 8 := by
  rw [bits, List.length_map, List.length_range]

theorem stuff_cons (b : UInt8) (bytes : List UInt8) :
    stuff (b :: bytes) = stuff [b] ++ stuff bytes := by
  rw [stuff, stuff, stuff, List.flatMap_cons, List.flatMap_singleton]

theorem stuff_plain {b : UInt8} (h : b ≠ 0xFF) : stuff [b] = [b] := by
  rw [stuff, List.flatMap_singleton, if_neg h]

/-- A byte is fetched exactly where it stands stuffed. -/
theorem nextByte_eq_some {r : BitReader} {b : UInt8} {rest : List UInt8} {position : Nat} :
    r.nextByte? = some (b, rest, position) ↔
      r.rest = stuff [b] ++ rest ∧ position = r.position + (stuff [b]).length := by
  rw [nextByte?]
  constructor
  · intro h
    split at h
    · cases h
    · next first more hrest =>
      split at h
      · next hne =>
        obtain ⟨rfl, rfl, rfl⟩ : first = b ∧ more = rest ∧ r.position + 1 = position := by
          simpa using h
        rw [stuff_plain (by simpa using hne)]
        exact ⟨hrest, rfl⟩
      · next heq =>
        obtain rfl : first = 0xFF := by simpa using heq
        split at h
        · next more' =>
          obtain ⟨rfl, rfl, rfl⟩ : 0xFF = b ∧ more' = rest ∧ r.position + 2 = position := by
            simpa using h
          exact ⟨hrest, rfl⟩
        · cases h
  · intro hcoded
    rcases hcoded with ⟨hrest, rfl⟩
    by_cases hb : b = 0xFF
    · subst hb
      rw [hrest]
      rfl
    · rw [stuff_plain hb] at hrest ⊢
      rw [hrest]
      exact if_pos (by simpa using hb)

/-- The bit that is read comes from the pending ones or, where there are none, from a new byte. -/
theorem readBit_eq_ok {r s : BitReader} {bit : Bool} :
    r.readBit = (.ok bit, s) ↔
      (∃ pending, r.pending = bit :: pending ∧ s = ⟨r.rest, r.position, pending⟩) ∨
      (r.pending = [] ∧ ∃ b rest position pending, r.nextByte? = some (b, rest, position) ∧
        bits b = bit :: pending ∧ s = ⟨rest, position, pending⟩) := by
  rw [readBit]
  constructor
  · intro h
    split at h
    · next first pending hpending =>
      obtain ⟨hbit, rfl⟩ := Prod.mk.inj h
      obtain rfl := Except.ok.inj hbit
      exact .inl ⟨pending, hpending, rfl⟩
    · next hpending =>
      split at h
      · cases (Prod.mk.inj h).1
      · next b rest position hbyte =>
        split at h
        · next first pending hbits =>
          obtain ⟨hbit, rfl⟩ := Prod.mk.inj h
          obtain rfl := Except.ok.inj hbit
          exact .inr ⟨hpending, b, rest, position, pending, hbyte, hbits, rfl⟩
        · cases (Prod.mk.inj h).1
  · rintro (⟨pending, hpending, rfl⟩ | ⟨hpending, b, rest, position, pending, hbyte, hbits, rfl⟩)
    · rw [hpending]
    · rw [hpending]
      dsimp only
      rw [hbyte]
      dsimp only
      rw [hbits]

/-- The bits that are taken and those pending afterwards are the ones that were pending and those of
whole stuffed bytes. A byte is fetched only when one of its bits is needed. -/
structure Spans (bytes : List UInt8) (taken : List Bool) (r t : BitReader) : Prop where
  rest : r.rest = stuff bytes ++ t.rest
  bits : r.pending ++ bytes.flatMap bits = taken ++ t.pending
  position : t.position = r.position + (stuff bytes).length
  last : bytes ≠ [] → t.pending.length < 8

namespace Spans

variable {bytes : List UInt8} {taken : List Bool} {bit : Bool} {r s t : BitReader}

protected theorem refl (r : BitReader) : Spans [] [] r r :=
  ⟨rfl, List.append_nil _, rfl, fun h => absurd rfl h⟩

/-- Without a bit taken no byte was fetched. -/
theorem eq_of_nil (h : Spans bytes [] r t) : t = r := by
  cases bytes with
  | nil =>
    obtain ⟨rest, position, pending⟩ := t
    obtain rfl : r.rest = rest := h.rest
    obtain rfl : r.pending = pending := (List.append_nil _).symm.trans h.bits
    obtain rfl : position = r.position := h.position
    rfl
  | cons b bytes =>
    have hlength := congrArg List.length h.bits
    have hlt := h.last (List.cons_ne_nil _ _)
    simp at hlength
    omega

/-- A bit read in front is pending, or it is the first one of a byte in front. -/
theorem cons (hbit : r.readBit = (.ok bit, s)) (h : Spans bytes taken s t) :
    ∃ bytes, Spans bytes (bit :: taken) r t := by
  rcases readBit_eq_ok.mp hbit with ⟨pending, hp, rfl⟩ | ⟨hp, b, rest, position, pending,
    hbyte, hbits, rfl⟩
  · refine ⟨bytes, h.rest, ?_, h.position, h.last⟩
    rw [hp]
    exact congrArg (bit :: ·) h.bits
  · obtain ⟨hfirst, rfl⟩ := nextByte_eq_some.mp hbyte
    obtain ⟨hrest, hpending, hposition, hlast⟩ := h
    dsimp only at hrest hpending hposition
    refine ⟨b :: bytes, ?_, ?_, ?_, fun _ => ?_⟩
    · rw [hfirst, hrest, stuff_cons b bytes, List.append_assoc]
    · rw [hp, List.flatMap_cons, hbits]
      exact congrArg (bit :: ·) hpending
    · rw [hposition, stuff_cons b bytes, List.length_append, Nat.add_assoc]
    · cases bytes with
      | nil =>
        have hlength := congrArg List.length hbits
        have hlength' := congrArg List.length hpending
        simp at hlength hlength'
        omega
      | cons => exact hlast (List.cons_ne_nil _ _)

/-- The first of the bits is read, and the others are left to be taken. -/
theorem uncons (h : Spans bytes (bit :: taken) r t) :
    ∃ s bytes, r.readBit = (.ok bit, s) ∧ Spans bytes taken s t := by
  obtain ⟨hrest, hpending, hposition, hlast⟩ := h
  cases hp : r.pending with
  | cons first pending =>
    rw [hp] at hpending
    obtain ⟨rfl, htail⟩ := List.cons.inj hpending
    exact ⟨_, bytes, readBit_eq_ok.mpr (.inl ⟨pending, hp, rfl⟩), hrest, htail, hposition, hlast⟩
  | nil =>
    rw [hp] at hpending
    cases bytes with
    | nil => cases hpending
    | cons b bytes =>
      cases hbits : BitReader.bits b with
      | nil => exact absurd (congrArg List.length hbits) (by simp)
      | cons first pending =>
        rw [List.nil_append, List.flatMap_cons, hbits] at hpending
        obtain ⟨rfl, htail⟩ := List.cons.inj hpending
        rw [stuff_cons b bytes, List.append_assoc] at hrest
        rw [stuff_cons b bytes, List.length_append, ← Nat.add_assoc] at hposition
        have hbyte := nextByte_eq_some.mpr ⟨hrest, rfl⟩
        exact ⟨_, bytes, readBit_eq_ok.mpr (.inr ⟨hp, b, _, _, pending, hbyte, hbits, rfl⟩),
          rfl, htail, hposition, fun _ => hlast (List.cons_ne_nil _ _)⟩

end Spans

theorem takes_iff {taken : List Bool} {r t : BitReader} :
    Takes taken r t ↔ ∃ bytes, Spans bytes taken r t := by
  induction taken generalizing r with
  | nil =>
    constructor
    · rintro rfl
      exact ⟨[], .refl _⟩
    · intro hcoded
      rcases hcoded with ⟨bytes, h⟩
      exact h.eq_of_nil
  | cons bit taken ih =>
    constructor
    · intro hcoded
      rcases hcoded with ⟨s, hbit, htakes⟩
      obtain ⟨bytes, h⟩ := ih.mp htakes
      exact h.cons hbit
    · intro hcoded
      rcases hcoded with ⟨bytes, h⟩
      obtain ⟨s, bytes, hbit, h⟩ := h.uncons
      exact ⟨s, hbit, ih.mpr ⟨bytes, h⟩⟩

theorem receiveFrom_iff {n value result : Nat} {r t : BitReader} :
    receiveFrom n value r = (.ok result, t) ↔
      ∃ taken, taken.length = n ∧ Takes taken r t ∧ result = Huffman.valueFrom value taken := by
  induction n generalizing value r with
  | zero =>
    constructor
    · intro h
      obtain ⟨hvalue, rfl⟩ := Prod.mk.inj h
      obtain rfl := Except.ok.inj hvalue
      exact ⟨[], rfl, rfl, rfl⟩
    · intro hcoded
      rcases hcoded with ⟨taken, hlength, htakes, rfl⟩
      obtain rfl := List.length_eq_zero_iff.mp hlength
      obtain rfl : t = r := htakes
      rfl
  | succ n ih =>
    rw [receiveFrom]
    constructor
    · intro h
      split at h
      · next bit s hbit =>
        obtain ⟨taken, hlength, htakes, hresult⟩ := ih.mp h
        exact ⟨bit :: taken, congrArg Nat.succ hlength, ⟨s, hbit, htakes⟩, hresult⟩
      · cases (Prod.mk.inj h).1
    · intro hcoded
      rcases hcoded with ⟨taken, hlength, htakes, hresult⟩
      cases taken with
      | nil => cases hlength
      | cons bit taken =>
        obtain ⟨s, hbit, htakes⟩ := htakes
        rw [hbit]
        exact ih.mpr ⟨taken, Nat.succ.inj hlength, htakes, hresult⟩

/-- Any bits at all are received. -/
theorem receive_iff {n : Nat} {r t : BitReader} :
    (∃ value, r.receive n = (.ok value, t)) ↔ ∃ taken, taken.length = n ∧ Takes taken r t := by
  rw [receive]
  cases hreceive : receiveFrom n 0 r with
  | mk result s =>
    cases result with
    | error e =>
      constructor
      · intro hcoded
        rcases hcoded with ⟨value, h⟩
        cases (Prod.mk.inj h).1
      · intro hcoded
        rcases hcoded with ⟨taken, hlength, htakes⟩
        cases hreceive.symm.trans (receiveFrom_iff.mpr ⟨taken, hlength, htakes, rfl⟩)
    | ok result =>
      constructor
      · intro hcoded
        rcases hcoded with ⟨value, h⟩
        obtain ⟨_, rfl⟩ := Prod.mk.inj h
        obtain ⟨taken, hlength, htakes, _⟩ := receiveFrom_iff.mp hreceive
        exact ⟨taken, hlength, htakes⟩
      · intro hcoded
        rcases hcoded with ⟨taken, hlength, htakes⟩
        obtain ⟨_, rfl⟩ := Prod.mk.inj
          (hreceive.symm.trans (receiveFrom_iff.mpr ⟨taken, hlength, htakes, rfl⟩))
        exact ⟨_, rfl⟩

private theorem lookup_eq_ok {table : Huffman.Table} {length code : Nat} {symbol : UInt8} :
    lookup table length code = .ok symbol ↔ table.symbol? length code = some symbol := by
  rw [lookup]
  cases table.symbol? length code with
  | none => simp
  | some found => simp

/-- Where the search stops there is the symbol or none at all, since no code goes on from there. -/
private theorem decodeFrom_of_stop {table : Huffman.Table} (h : table.Built)
    {more length code : Nat} (hlength : 0 < length) (hstop : (code : Int) ≤ table.maxCode length)
    {symbol : UInt8} {r t : BitReader} :
    decodeFrom table more length code r = (.ok symbol, t) ↔
      ∃ taken, taken.length ≤ more ∧ Takes taken r t ∧
        table.symbol? (length + taken.length) (Huffman.valueFrom code taken) = some symbol := by
  unfold decodeFrom
  rw [if_pos hstop]
  constructor
  · intro hlookup
    obtain ⟨hsymbol, rfl⟩ := Prod.mk.inj hlookup
    exact ⟨[], Nat.zero_le _, rfl, lookup_eq_ok.mp hsymbol⟩
  · intro hcoded
    rcases hcoded with ⟨taken, _, htakes, hsymbol⟩
    cases taken with
    | nil =>
      obtain rfl : t = r := htakes
      have hlookup : lookup table length code = .ok symbol := lookup_eq_ok.mpr hsymbol
      rw [hlookup]
    | cons bit taken =>
      have hlt := h.maxCode_lt hlength (List.cons_ne_nil bit taken) hsymbol
      omega

/-- From the bits `code` on, a symbol is decoded exactly if further bits complete its code. -/
theorem decodeFrom_iff {table : Huffman.Table} (h : table.Built) {more length code : Nat}
    (hlength : 0 < length) {symbol : UInt8} {r t : BitReader} :
    decodeFrom table more length code r = (.ok symbol, t) ↔
      ∃ taken, taken.length ≤ more ∧ Takes taken r t ∧
        table.symbol? (length + taken.length) (Huffman.valueFrom code taken) = some symbol := by
  induction more generalizing length code r with
  | zero =>
    by_cases hstop : (code : Int) ≤ table.maxCode length
    · exact decodeFrom_of_stop h hlength hstop
    rw [decodeFrom]
    rw [if_neg hstop]
    constructor
    · intro hdecode
      cases (Prod.mk.inj hdecode).1
    · intro hcoded
      rcases hcoded with ⟨taken, hle, _, hsymbol⟩
      obtain rfl := List.length_eq_zero_iff.mp (Nat.le_zero.mp hle)
      exact absurd (Huffman.Table.le_maxCode_of_symbol hsymbol) hstop
  | succ more ih =>
    by_cases hstop : (code : Int) ≤ table.maxCode length
    · exact decodeFrom_of_stop h hlength hstop
    unfold decodeFrom
    rw [if_neg hstop]
    constructor
    · intro hdecode
      dsimp only at hdecode
      split at hdecode
      · next bit s hbit =>
        obtain ⟨taken, hle, htakes, hsymbol⟩ := (ih (Nat.succ_pos length)).mp hdecode
        refine ⟨bit :: taken, Nat.succ_le_succ hle, ⟨s, hbit, htakes⟩, ?_⟩
        rw [List.length_cons, ← Nat.succ_add_eq_add_succ]
        exact hsymbol
      · cases (Prod.mk.inj hdecode).1
    · intro hcoded
      rcases hcoded with ⟨taken, hle, htakes, hsymbol⟩
      cases taken with
      | nil => exact absurd (Huffman.Table.le_maxCode_of_symbol hsymbol) hstop
      | cons bit taken =>
        obtain ⟨s, hbit, htakes⟩ := htakes
        rw [hbit]
        refine (ih (Nat.succ_pos length)).mpr ⟨taken, Nat.le_of_succ_le_succ hle, htakes, ?_⟩
        rw [Nat.succ_add_eq_add_succ]
        exact hsymbol

/-- A symbol is decoded exactly from its code. -/
theorem decode_iff {table : Huffman.Table} (h : table.Built) {symbol : UInt8} {r t : BitReader} :
    r.decode table = (.ok symbol, t) ↔
      ∃ taken, table.Codeword symbol taken ∧ Takes taken r t := by
  simp only [h.codeword_iff]
  rw [decode]
  constructor
  · intro hdecode
    split at hdecode
    · next bit s hbit =>
      obtain ⟨taken, _, htakes, hsymbol⟩ := (decodeFrom_iff h Nat.one_pos).mp hdecode
      refine ⟨bit :: taken, ?_, s, hbit, htakes⟩
      rw [List.length_cons, Nat.add_comm]
      rw [Huffman.valueFrom, List.foldl_cons, Nat.mul_zero, Nat.zero_add]
      exact hsymbol
    · cases (Prod.mk.inj hdecode).1
  · intro hcoded
    rcases hcoded with ⟨taken, hsymbol, htakes⟩
    obtain ⟨hpos, hle⟩ := h.length_le hsymbol
    cases taken with
    | nil => cases hpos
    | cons bit taken =>
      obtain ⟨s, hbit, htakes⟩ := htakes
      rw [hbit]
      refine (decodeFrom_iff h Nat.one_pos).mpr ⟨taken, Nat.le_of_succ_le_succ hle, htakes, ?_⟩
      rw [Nat.add_comm]
      rw [Huffman.valueFrom, List.foldl_cons, Nat.mul_zero, Nat.zero_add] at hsymbol
      exact hsymbol

/-- Pending bits are dropped; the marker has to follow at once. -/
theorem restart_iff {expected : Nat} (h : expected < 8) {r t : BitReader} :
    r.restart expected = (.ok (), t) ↔
      ∃ rest, r.rest = 0xFF :: UInt8.ofNat (0xD0 + expected) :: rest ∧
        t = ⟨rest, r.position + 2, []⟩ := by
  have hnat : (UInt8.ofNat (0xD0 + expected)).toNat = 0xD0 + expected :=
    UInt8.toNat_ofNat_of_lt' (Nat.lt_of_lt_of_le (Nat.add_lt_add_left h 0xD0) (by decide))
  rw [restart]
  dsimp only
  constructor
  · intro hrestart
    split at hrestart
    · next second rest hrest =>
      split at hrestart
      · next hmarker =>
        split at hrestart
        · next hfound =>
          obtain ⟨_, rfl⟩ := Prod.mk.inj hrestart
          have hle := (MarkerId.isRestart_iff.mp hmarker).1
          obtain rfl : second = UInt8.ofNat (0xD0 + expected) := UInt8.toNat_inj.mp (by omega)
          exact ⟨rest, hrest, rfl⟩
        · cases (Prod.mk.inj hrestart).1
      · cases (Prod.mk.inj hrestart).1
    · cases (Prod.mk.inj hrestart).1
  · intro hcoded
    rcases hcoded with ⟨rest, hrest, rfl⟩
    have hmarker : MarkerId.isRestart (0xFF00 + (UInt8.ofNat (0xD0 + expected)).toNat) = true :=
      MarkerId.isRestart_iff.mpr (by omega)
    rw [hrest]
    refine (if_pos hmarker).trans (if_pos ?_)
    rw [hnat, Nat.add_sub_cancel_left]

end BitReader
end ImageAudit.Jpeg
