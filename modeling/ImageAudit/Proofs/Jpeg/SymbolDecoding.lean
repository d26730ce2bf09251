import ImageAudit.Proofs.Jpeg.Bits

/-! Decoding symbols. What a reader can still give are the unread bits of the last byte and those of
the bytes up to the next marker. A symbol is decoded from its codeword if one of them stands in
front of these bits, and otherwise sixteen bits are taken, or all if there are fewer. -/
namespace ImageAudit.Jpeg.BitReader

/-- The bytes up to the next marker, a stuffed `FF 00` being the byte `FF`. -/
def destuffed : List UInt8 → List UInt8
  | 0xFF :: 0 :: rest => 0xFF :: destuffed rest
  | b :: rest => if b = 0xFF then [] else b :: destuffed rest
  | [] => []

/-- The bits that can be read before the next marker or the end of the data. -/
def readable (r : BitReader) : List Bool := r.pending ++ (destuffed r.rest).flatMap bits

def advance : (n : Nat) → BitReader → BitReader
  | 0, r => r
  | n + 1, r => advance n r.readBit.2

variable {r s : BitReader}

/-- A stuffed byte is the byte. -/
theorem destuffed_stuff (b : UInt8) (rest : List UInt8) :
    destuffed (stuff [b] ++ rest) = b :: destuffed rest := by
  by_cases hb : b = 0xFF
  · subst hb
    rfl
  · rw [stuff_plain hb]
    simp [destuffed, hb]

/-- Where no byte can be fetched there is a marker or the end. -/
theorem destuffed_of_nextByte?_none (h : r.nextByte? = none) : destuffed r.rest = [] := by
  obtain ⟨rest, position, pending⟩ := r
  obtain _ | ⟨b, _ | ⟨c, rest⟩⟩ := rest
  · rfl
  · by_cases hb : b = 0xFF
    · simp [destuffed, hb]
    · simp [nextByte?, hb] at h
  · by_cases hb : b = 0xFF
    · by_cases hc : c = 0
      · simp [nextByte?, hb, hc] at h
      · simp [destuffed, hb, hc]
    · simp [nextByte?, hb] at h

theorem destuffed_of_nextByte?_some {b : UInt8} {rest : List UInt8} {position : Nat}
    (h : r.nextByte? = some (b, rest, position)) : destuffed r.rest = b :: destuffed rest := by
  rw [(nextByte_eq_some.mp h).1, destuffed_stuff]

/-- Without readable bits a read fails and nothing is changed. -/
theorem readBit_of_readable_nil (h : r.readable = []) : r.readBit = (.error .endOfData, r) := by
  obtain ⟨hpending, hbytes⟩ := List.append_eq_nil_iff.mp h
  rw [readBit, hpending]
  cases hbyte : r.nextByte? with
  | none => rfl
  | some found =>
    obtain ⟨b, rest, position⟩ := found
    rw [destuffed_of_nextByte?_some hbyte, List.flatMap_cons] at hbytes
    have hlength := congrArg List.length (List.append_eq_nil_iff.mp hbytes).1
    rw [length_bits] at hlength
    cases hlength

/-- The first readable bit is the one that is read, and the others stay. -/
theorem readBit_of_readable_cons {bit : Bool} {more : List Bool} (h : r.readable = bit :: more) :
    ∃ s, r.readBit = (.ok bit, s) ∧ s.readable = more := by
  rw [readable] at h
  cases hpending : r.pending with
  | cons first pending =>
    rw [hpending] at h
    obtain ⟨rfl, hmore⟩ := List.cons.inj h
    exact ⟨_, readBit_eq_ok.mpr (.inl ⟨pending, hpending, rfl⟩), hmore⟩
  | nil =>
    rw [hpending, List.nil_append] at h
    cases hbyte : r.nextByte? with
    | none =>
      rw [destuffed_of_nextByte?_none hbyte] at h
      cases h
    | some found =>
      obtain ⟨b, rest, position⟩ := found
      rw [destuffed_of_nextByte?_some hbyte, List.flatMap_cons] at h
      cases hbits : bits b with
      | nil => exact absurd (congrArg List.length hbits) (by simp)
      | cons first pending =>
        rw [hbits] at h
        obtain ⟨rfl, hmore⟩ := List.cons.inj h
        exact ⟨_, readBit_eq_ok.mpr (.inr ⟨hpending, b, rest, position, pending, hbyte, hbits,
          rfl⟩), hmore⟩

/-- The bits that are asked for are no longer readable. -/
theorem readable_advance (n : Nat) (r : BitReader) :
    (r.advance n).readable = r.readable.drop n := by
  induction n generalizing r with
  | zero => rfl
  | succ n ih =>
    rw [advance, ih]
    cases hreadable : r.readable with
    | nil =>
      rw [readBit_of_readable_nil hreadable, hreadable, List.drop_nil, List.drop_nil]
    | cons bit more =>
      obtain ⟨s, hbit, hmore⟩ := readBit_of_readable_cons hreadable
      rw [hbit, hmore, List.drop_succ_cons]

/-- Reading bit by bit gives the bits in front of the readable ones. -/
theorem takes_iff_isPrefix {taken : List Bool} :
    Takes taken r s ↔ taken <+: r.readable ∧ s = r.advance taken.length := by
  induction taken generalizing r with
  | nil => exact ⟨fun h => ⟨List.nil_prefix, h⟩, fun h => h.2⟩
  | cons bit taken ih =>
    cases hreadable : r.readable with
    | nil =>
      constructor
      · rintro ⟨t, hbit, _⟩
        cases (readBit_of_readable_nil hreadable).symm.trans hbit
      · rintro ⟨hstarts, _⟩
        cases List.eq_nil_of_prefix_nil hstarts
    | cons first more =>
      obtain ⟨t, hbit, rfl⟩ := readBit_of_readable_cons hreadable
      have hadvance : r.advance (bit :: taken).length = t.advance taken.length := by
        rw [List.length_cons, advance, hbit]
      rw [List.cons_prefix_cons, hadvance]
      constructor
      · rintro ⟨u, hbit', htakes⟩
        obtain ⟨hsame, rfl⟩ := Prod.mk.inj (hbit.symm.trans hbit')
        obtain ⟨hstarts, hs⟩ := ih.mp htakes
        exact ⟨⟨(Except.ok.inj hsame).symm, hstarts⟩, hs⟩
      · rintro ⟨⟨rfl, hstarts⟩, hs⟩
        exact ⟨t, hbit, ih.mpr ⟨hstarts, hs⟩⟩

/-- A symbol is decoded, or no code is found in all the bits that may be read, or they end before
that. The search never stops at a number that is smaller than the codes of its length. -/
theorem decodeFrom_cases {t : Huffman.Table} (h : t.Built) {more length code : Nat}
    (hlength : 0 < length) (hreaches : t.Reaches length code) (r : BitReader) :
    (∃ symbol s, decodeFrom t more length code r = (.ok symbol, s)) ∨
    (more ≤ r.readable.length ∧
      decodeFrom t more length code r = (.error .invalidCode, r.advance more)) ∨
    (r.readable.length < more ∧
      decodeFrom t more length code r = (.error .endOfData, r.advance r.readable.length)) := by
  induction more generalizing length code r with
  | zero =>
    by_cases hstop : (code : Int) ≤ t.maxCode length
    · obtain ⟨symbol, hsymbol⟩ := h.exists_symbol hlength hreaches hstop
      refine .inl ⟨symbol, r, ?_⟩
      rw [decodeFrom, if_pos hstop, lookup, hsymbol]
    · refine .inr (.inl ⟨Nat.zero_le _, ?_⟩)
      rw [decodeFrom, if_neg hstop]
      rfl
  | succ more ih =>
    by_cases hstop : (code : Int) ≤ t.maxCode length
    · obtain ⟨symbol, hsymbol⟩ := h.exists_symbol hlength hreaches hstop
      refine .inl ⟨symbol, r, ?_⟩
      rw [decodeFrom, if_pos hstop, lookup, hsymbol]
    · rw [decodeFrom, if_neg hstop, advance]
      cases hreadable : r.readable with
      | nil =>
        rw [readBit_of_readable_nil hreadable]
        exact .inr (.inr ⟨Nat.succ_pos _, rfl⟩)
      | cons bit bits =>
        obtain ⟨s, hbit, rfl⟩ := readBit_of_readable_cons hreadable
        have hnext := h.reaches_succ hlength hreaches (Int.not_le.mp hstop) bit.toNat
        rw [hbit, List.length_cons, advance, hbit]
        simpa only [Nat.succ_le_succ_iff, Nat.succ_lt_succ_iff] using ih (Nat.succ_pos _) hnext s

theorem decode_cases {t : Huffman.Table} (h : t.Built) (r : BitReader) :
    (∃ symbol s, r.decode t = (.ok symbol, s)) ∨
    (Huffman.maxLength ≤ r.readable.length ∧
      r.decode t = (.error .invalidCode, r.advance Huffman.maxLength)) ∨
    (r.readable.length < Huffman.maxLength ∧
      r.decode t = (.error .endOfData, r.advance r.readable.length)) := by
  rw [decode]
  cases hreadable : r.readable with
  | nil =>
    rw [readBit_of_readable_nil hreadable]
    exact .inr (.inr ⟨by decide, rfl⟩)
  | cons bit bits =>
    obtain ⟨s, hbit, rfl⟩ := readBit_of_readable_cons hreadable
    have hmax : Huffman.maxLength = Huffman.maxLength - 1 + 1 := rfl
    rw [hbit, List.length_cons, hmax, advance, advance, hbit, Nat.add_sub_cancel]
    simpa only [Nat.succ_le_succ_iff, Nat.succ_lt_succ_iff] using
      decodeFrom_cases h Nat.one_pos (h.reaches_one bit.toNat) s

/-- A symbol is decoded exactly from its codeword, which has to stand in front of the readable
bits. -/
theorem decode_eq_ok_iff {t : Huffman.Table} (h : t.Built) {symbol : UInt8} :
    r.decode t = (.ok symbol, s) ↔
      ∃ word, t.Codeword symbol word ∧ word <+: r.readable ∧ s = r.advance word.length := by
  simp only [decode_iff h, takes_iff_isPrefix]

def decodeMany (t : Huffman.Table) :
    (n : Nat) → BitReader → Except BitError (List UInt8) × BitReader
  | 0, r => (.ok [], r)
  | n + 1, r =>
    match r.decode t with
    | (.ok symbol, r) =>
      let (rest, r) := decodeMany t n r
      (rest.map (symbol :: ·), r)
    | (.error e, r) => (.error e, r)

theorem advance_add (m n : Nat) (r : BitReader) : r.advance (m + n) = (r.advance m).advance n := by
  induction m generalizing r with
  | zero => rw [Nat.zero_add, advance]
  | succ m ih => rw [Nat.succ_add, advance, advance, ih]

/-- Symbols are decoded one after another from their codewords. -/
theorem decodeMany_eq_ok {t : Huffman.Table} (h : t.Built) {words : List (UInt8 × List Bool)}
    (hwords : ∀ w ∈ words, t.Codeword w.1 w.2) (hstarts : words.flatMap (·.2) <+: r.readable) :
    decodeMany t words.length r =
      (.ok (words.map (·.1)), r.advance (words.flatMap (·.2)).length) := by
  induction words generalizing r with
  | nil => rfl
  | cons w words ih =>
    rw [List.forall_mem_cons] at hwords
    rw [List.flatMap_cons] at hstarts ⊢
    obtain ⟨more, hmore⟩ := hstarts
    rw [List.append_assoc] at hmore
    have hdecode : r.decode t = (.ok w.1, r.advance w.2.length) :=
      (decode_eq_ok_iff h).mpr ⟨w.2, hwords.1, ⟨_, hmore⟩, rfl⟩
    have hrest : words.flatMap (·.2) <+: (r.advance w.2.length).readable := by
      rw [readable_advance, ← hmore, List.drop_left]
      exact List.prefix_append _ _
    rw [List.length_cons, decodeMany, hdecode]
    dsimp only
    rw [ih hwords.2 hrest, List.length_append, advance_add]
    rfl

/-- Decoding goes by the code book. The symbol of the codeword that stands in front of the readable
bits is decoded, and that codeword is taken; where there is none, sixteen bits are taken for an
invalid code, or all there are if the data end before that. So a text of codewords is decoded to
its symbols. -/
theorem decode_matches_codebook {t : Huffman.Table} (h : t.Built) (r : BitReader) :
    (∀ symbol s, r.decode t = (.ok symbol, s) ↔
      ∃ word, t.Codeword symbol word ∧ word <+: r.readable ∧ s = r.advance word.length) ∧
    ((¬ ∃ symbol word, t.Codeword symbol word ∧ word <+: r.readable) →
      (16 ≤ r.readable.length → r.decode t = (.error .invalidCode, r.advance 16)) ∧
      (r.readable.length < 16 →
        r.decode t = (.error .endOfData, r.advance r.readable.length))) ∧
    (∀ words : List (UInt8 × List Bool), (∀ w ∈ words, t.Codeword w.1 w.2) →
      words.flatMap (·.2) <+: r.readable →
      decodeMany t words.length r =
        (.ok (words.map (·.1)), r.advance (words.flatMap (·.2)).length)) ∧
    (∀ n, (r.advance n).readable = r.readable.drop n) := by
  refine ⟨fun symbol s => decode_eq_ok_iff h, fun hnone => ?_,
    fun words hwords hstarts => decodeMany_eq_ok h hwords hstarts, fun n => readable_advance n r⟩
  obtain ⟨symbol, s, hok⟩ | ⟨hle, hinvalid⟩ | ⟨hlt, hend⟩ := decode_cases h r
  · obtain ⟨word, hword, hstarts, _⟩ := (decode_eq_ok_iff h).mp hok
    exact absurd ⟨symbol, word, hword, hstarts⟩ hnone
  · exact ⟨fun _ => hinvalid, fun hlt => absurd hle (Nat.not_le_of_lt hlt)⟩
  · exact ⟨fun hle => absurd hlt (Nat.not_lt_of_le hle), fun _ => hend⟩

def threeSymbols : BitReader := ⟨[0xFF, 0x00, 0x1B, 0xFF, 0xD9], 0, []⟩

theorem decode_matches_codebook_threeSymbols :
    Huffman.luminanceTable.Built ∧
      decodeMany Huffman.luminanceTable 3 threeSymbols =
        (.ok [11, 0, 5], threeSymbols.advance 14) ∧
      (threeSymbols.advance 14).decode Huffman.luminanceTable =
        (.error .endOfData, ⟨[0xFF, 0xD9], 3, []⟩) := by
  have hbuilt := Huffman.built_luminanceTable
  obtain ⟨_, _, hmany, _⟩ := decode_matches_codebook hbuilt threeSymbols
  obtain ⟨_, herror, _, _⟩ := decode_matches_codebook hbuilt (threeSymbols.advance 14)
  refine ⟨hbuilt, ?_, ?_⟩
  · refine hmany [(11, [true, true, true, true, true, true, true, true, false]),
      (0, [false, false]), (5, [true, true, false])] ?_ (by decide)
    simp only [List.forall_mem_cons, List.not_mem_nil, false_implies, implies_true, and_true]
    exact ⟨⟨11, rfl, rfl, rfl⟩, ⟨0, rfl, rfl, rfl⟩, ⟨5, rfl, rfl, rfl⟩⟩
  · refine (herror ?_).2 (by decide)
    rintro ⟨symbol, word, hword, hstarts⟩
    have hbits : word <+: [true, true] := hstarts
    rw [hbuilt.codeword_iff] at hword
    obtain rfl | ⟨word', rfl, hsecond⟩ := List.prefix_cons_iff.mp hbits
    · cases hword
    obtain rfl | ⟨word'', rfl, hlast⟩ := List.prefix_cons_iff.mp hsecond
    · cases hword
    · obtain rfl := List.eq_nil_of_prefix_nil hlast
      cases hword

end ImageAudit.Jpeg.BitReader
