import ImageAudit.Proofs.Jpeg.SymbolDecoding

/-! What a read takes of the readable bits. It takes the fewest bits in front that are enough for
it, and what it answers depends on these alone; if there are not enough, it takes all of them and
fails. -/
namespace ImageAudit.Jpeg.BitReader

inductive Read where
  | bit
  | receive (n : Fin 17)
  | decode (t : Huffman.Table)

inductive Answer where
  | bit (value : Bool)
  | number (value : Nat)
  | symbol (value : UInt8)
  | failed (e : BitError)
  | restarted
  | refused (e : RestartError)
deriving DecidableEq, Repr

def Answer.ofResult {α : Type} (answer : α → Answer) : Except BitError α → Answer
  | .ok a => answer a
  | .error e => .failed e

def Read.apply (r : BitReader) : Read → Answer × BitReader
  | .bit => (.ofResult .bit r.readBit.1, r.readBit.2)
  | .receive n => (.ofResult .number (r.receive n).1, (r.receive n).2)
  | .decode t => (.ofResult .symbol (r.decode t).1, (r.decode t).2)

/-- Bits with which a search for a code is over. -/
def Stops (t : Huffman.Table) (word : List Bool) : Prop :=
  word ≠ [] ∧ ((Huffman.valueFrom 0 word : Int) ≤ t.maxCode word.length ∨
    word.length = Huffman.maxLength)

/-- Bits that are enough for a read, and what it makes of them. -/
inductive Read.Serves : Read → List Bool → Answer → Prop
  | bit (value : Bool) : Serves .bit [value] (.bit value)
  | receive (n : Fin 17) (word : List Bool) (h : word.length = n) :
    Serves (.receive n) word (.number (Huffman.valueFrom 0 word))
  | decode (t : Huffman.Table) (word : List Bool) (h : Stops t word) :
    Serves (.decode t) word
      (.ofResult .symbol (lookup t word.length (Huffman.valueFrom 0 word)))

/-- A read takes the fewest bits in front of the readable ones that are enough for it; if there are
not enough, it takes them all and fails. -/
inductive Reads (k : Read) (r : BitReader) : Answer → List Bool → BitReader → Prop
  | served {answer : Answer} {taken : List Bool} {s : BitReader} (hserves : k.Serves taken answer)
    (hfewest : ∀ fewer other, fewer <+: taken → k.Serves fewer other → fewer = taken)
    (htakes : Takes taken r s) : Reads k r answer taken s
  | exhausted {s : BitReader} (hnone : ∀ word other, word <+: r.readable → ¬ k.Serves word other)
    (htakes : Takes r.readable r s) : Reads k r (.failed .endOfData) r.readable s

variable {r s : BitReader} {k : Read} {answer : Answer} {taken : List Bool}

/-- All bits are received, or too few are there. -/
theorem receiveFrom_eq (n value : Nat) (r : BitReader) :
    receiveFrom n value r =
      if n ≤ r.readable.length then
        (.ok (Huffman.valueFrom value (r.readable.take n)), r.advance n)
      else (.error .endOfData, r.advance r.readable.length) := by
  induction n generalizing value r with
  | zero => rfl
  | succ n ih =>
    rw [receiveFrom]
    cases hreadable : r.readable with
    | nil =>
      rw [readBit_of_readable_nil hreadable]
      rfl
    | cons bit more =>
      obtain ⟨s, hbit, rfl⟩ := readBit_of_readable_cons hreadable
      rw [hbit, List.length_cons, advance, advance, hbit]
      dsimp only
      rw [ih]
      simp only [Nat.succ_le_succ_iff]
      rfl

/-- A number beyond the codes of its length has no symbol. -/
theorem lookup_of_maxCode_lt {t : Huffman.Table} {length code : Nat}
    (h : t.maxCode length < (code : Int)) : lookup t length code = .error .invalidCode := by
  rw [lookup]
  cases hsymbol : t.symbol? length code with
  | none => rfl
  | some symbol =>
    have := Huffman.Table.le_maxCode_of_symbol hsymbol
    omega

theorem not_le_maxCode_of_not_stops {t : Huffman.Table} {word : List Bool} (h : ¬ Stops t word) :
    ¬ (Huffman.valueFrom 0 word : Int) ≤ t.maxCode word.length := by
  intro hle
  cases word with
  | nil => cases hle
  | cons bit word => exact h ⟨List.cons_ne_nil bit word, .inl hle⟩

theorem decodeFrom_of_stops {t : Huffman.Table} {more : Nat} {word : List Bool}
    (hstops : Stops t word) (hlength : word.length + more = Huffman.maxLength) (r : BitReader) :
    decodeFrom t more word.length (Huffman.valueFrom 0 word) r =
      (lookup t word.length (Huffman.valueFrom 0 word), r) := by
  rw [decodeFrom.eq_def]
  by_cases hle : (Huffman.valueFrom 0 word : Int) ≤ t.maxCode word.length
  · rw [if_pos hle]
  · obtain rfl : more = 0 := by
      have := hstops.2.resolve_left hle
      omega
    rw [if_neg hle, lookup_of_maxCode_lt (Int.not_le.mp hle)]

/-- What a search for a code comes to that has passed the bits `word`, and the reader behind it. It
is over with the first bits that allow it, or where the bits end. -/
inductive Searches (t : Huffman.Table) (word : List Bool) (r : BitReader) :
    Except BitError UInt8 → BitReader → Prop
  | found {bits : List Bool} (hstops : Stops t (word ++ bits)) (hstarts : bits <+: r.readable)
    (hfewest : ∀ fewer, fewer <+: bits → Stops t (word ++ fewer) → fewer = bits) :
    Searches t word r (lookup t (word ++ bits).length (Huffman.valueFrom 0 (word ++ bits)))
      (r.advance bits.length)
  | ended (hnone : ∀ bits, bits <+: r.readable → ¬ Stops t (word ++ bits)) :
    Searches t word r (.error .endOfData) (r.advance r.readable.length)

namespace Searches

variable {t : Huffman.Table} {word : List Bool} {result : Except BitError UInt8} {u : BitReader}

theorem of_stops (h : Stops t word) (r : BitReader) :
    Searches t word r (lookup t word.length (Huffman.valueFrom 0 word)) r := by
  have hfound : Searches t word r _ (r.advance 0) :=
    @found t word r [] (by rwa [List.append_nil]) List.nil_prefix fun fewer hfewer _ =>
      List.eq_nil_of_prefix_nil hfewer
  rwa [List.append_nil] at hfound

theorem of_readable_nil (h : ¬ Stops t word) (hreadable : r.readable = []) :
    Searches t word r (.error .endOfData) r := by
  have hended : Searches t word r (.error .endOfData) (r.advance r.readable.length) := by
    refine .ended fun bits hbits => ?_
    rw [hreadable] at hbits
    rwa [List.eq_nil_of_prefix_nil hbits, List.append_nil]
  rwa [hreadable] at hended

/-- One more bit is passed. -/
theorem of_readBit {bit : Bool} (h : ¬ Stops t word) (hbit : r.readBit = (.ok bit, s))
    (hreadable : r.readable = bit :: s.readable) (hmore : Searches t (word ++ [bit]) s result u) :
    Searches t word r result u := by
  have hadvance : ∀ n, r.advance (n + 1) = s.advance n := fun n => by rw [advance, hbit]
  cases hmore with
  | @found bits hstops hstarts hfewest =>
    rw [← List.append_cons] at hstops ⊢
    rw [← hadvance, ← List.length_cons]
    refine .found hstops (hreadable ▸ List.cons_prefix_cons.mpr ⟨rfl, hstarts⟩)
      fun fewer hfewer hstop => ?_
    cases fewer with
    | nil => exact absurd hstop (by rwa [List.append_nil])
    | cons first fewer =>
      obtain ⟨rfl, htail⟩ := List.cons_prefix_cons.mp hfewer
      rw [List.append_cons] at hstop
      rw [hfewest fewer htail hstop]
  | ended hnone =>
    rw [← hadvance, ← List.length_cons, ← hreadable]
    refine .ended fun bits hbits hstop => ?_
    rw [hreadable] at hbits
    cases bits with
    | nil => exact h (by rwa [List.append_nil] at hstop)
    | cons first bits =>
      obtain ⟨rfl, htail⟩ := List.cons_prefix_cons.mp hbits
      rw [List.append_cons] at hstop
      exact hnone bits htail hstop

end Searches

theorem decodeFrom_searches (t : Huffman.Table) {more : Nat} {word : List Bool}
    (hlength : word.length + more = Huffman.maxLength) (r : BitReader) :
    Searches t word r (decodeFrom t more word.length (Huffman.valueFrom 0 word) r).1
      (decodeFrom t more word.length (Huffman.valueFrom 0 word) r).2 := by
  induction more generalizing word r with
  | zero =>
    -- sixteen bits were passed, with which every search is over
    have hpos : 0 < word.length := Nat.lt_of_lt_of_eq (by decide : 0 < 16) hlength.symm
    have hstops : Stops t word := ⟨List.ne_nil_of_length_pos hpos, .inr hlength⟩
    rw [decodeFrom_of_stops hstops hlength]
    exact .of_stops hstops r
  | succ more ih =>
    by_cases hstops : Stops t word
    · rw [decodeFrom_of_stops hstops hlength]
      exact .of_stops hstops r
    rw [decodeFrom, if_neg (not_le_maxCode_of_not_stops hstops)]
    cases hreadable : r.readable with
    | nil =>
      rw [readBit_of_readable_nil hreadable]
      exact .of_readable_nil hstops hreadable
    | cons bit rest =>
      obtain ⟨s, hbit, rfl⟩ := readBit_of_readable_cons hreadable
      have hvalue : 2 * Huffman.valueFrom 0 word + bit.toNat =
          Huffman.valueFrom 0 (word ++ [bit]) := (Huffman.valueFrom_append 0 word [bit]).symm
      have hlonger : (word ++ [bit]).length = word.length + 1 := List.length_append
      rw [hbit]
      dsimp only
      rw [hvalue, ← hlonger]
      exact .of_readBit hstops hbit hreadable (ih (by omega) s)

/-- The search for a symbol starts with no bits at all. -/
theorem decode_eq_decodeFrom (t : Huffman.Table) (r : BitReader) :
    r.decode t = decodeFrom t Huffman.maxLength 0 0 r := by
  rw [decode, show Huffman.maxLength = Huffman.maxLength - 1 + 1 from rfl, decodeFrom, if_neg]
  · simp only [Nat.mul_zero, Nat.zero_add]
    rfl
  · exact @not_le_maxCode_of_not_stops t [] fun hstops => hstops.1 rfl

theorem bit_reads (r : BitReader) :
    ∃ taken, Reads .bit r (Read.bit.apply r).1 taken (Read.bit.apply r).2 := by
  rw [Read.apply]
  cases hreadable : r.readable with
  | nil =>
    refine ⟨r.readable, ?_⟩
    rw [readBit_of_readable_nil hreadable]
    refine .exhausted (fun word other hword hserves => ?_) (hreadable ▸ rfl)
    rw [hreadable] at hword
    cases hserves with
    | bit value => cases List.eq_nil_of_prefix_nil hword
  | cons bit rest =>
    obtain ⟨s, hbit, _⟩ := readBit_of_readable_cons hreadable
    refine ⟨[bit], ?_⟩
    rw [hbit]
    refine .served (.bit bit) (fun fewer other hfewer hserves => ?_) ⟨s, hbit, rfl⟩
    cases hserves with
    | bit value => exact hfewer.eq_of_length rfl

/-- No bit is cut off of at most sixteen. -/
theorem valueFrom_mod_of_length_eq {n : Fin 17} {word : List Bool} (h : word.length = n) :
    Huffman.valueFrom 0 word % 0x10000 = Huffman.valueFrom 0 word := by
  have hlt := Huffman.valueFrom_lt 0 word
  rw [Nat.zero_add, Nat.shiftLeft_eq, Nat.one_mul] at hlt
  have hle : 2 ^ word.length ≤ 2 ^ 16 := Nat.pow_le_pow_right (by decide) (by omega)
  exact Nat.mod_eq_of_lt (Nat.lt_of_lt_of_le hlt hle)

theorem receive_reads (n : Fin 17) (r : BitReader) :
    ∃ taken, Reads (.receive n) r ((Read.receive n).apply r).1 taken
      ((Read.receive n).apply r).2 := by
  rw [Read.apply, receive, receiveFrom_eq]
  by_cases hle : n.val ≤ r.readable.length
  · have hlength : (r.readable.take n).length = n := List.length_take_of_le hle
    refine ⟨r.readable.take n, ?_⟩
    rw [if_pos hle]
    dsimp only [Except.map]
    rw [valueFrom_mod_of_length_eq hlength]
    refine .served (.receive n _ hlength) (fun fewer other hfewer hserves => ?_)
      (takes_iff_isPrefix.mpr ⟨List.take_prefix _ _, by rw [hlength]⟩)
    cases hserves with
    | receive _ _ h => exact hfewer.eq_of_length (h.trans hlength.symm)
  · refine ⟨r.readable, ?_⟩
    rw [if_neg hle]
    refine .exhausted (fun word other hword hserves => ?_)
      (takes_iff_isPrefix.mpr ⟨List.prefix_rfl, rfl⟩)
    cases hserves with
    | receive _ _ h => exact hle (h ▸ hword.length_le)

theorem decode_reads (t : Huffman.Table) (r : BitReader) :
    ∃ taken, Reads (.decode t) r ((Read.decode t).apply r).1 taken
      ((Read.decode t).apply r).2 := by
  have hsearches : Searches t [] r (r.decode t).1 (r.decode t).2 := by
    rw [decode_eq_decodeFrom]
    exact @decodeFrom_searches t Huffman.maxLength [] rfl r
  rw [Read.apply]
  generalize (r.decode t).1 = result at hsearches ⊢
  generalize (r.decode t).2 = s at hsearches ⊢
  cases hsearches with
  | @found bits hstops hstarts hfewest =>
    refine ⟨bits, .served (.decode t bits hstops) (fun fewer other hfewer hserves => ?_)
      (takes_iff_isPrefix.mpr ⟨hstarts, rfl⟩)⟩
    cases hserves with
    | decode _ _ h => exact hfewest fewer hfewer h
  | ended hnone =>
    refine ⟨r.readable, .exhausted (fun word other hword hserves => ?_)
      (takes_iff_isPrefix.mpr ⟨List.prefix_rfl, rfl⟩)⟩
    cases hserves with
    | decode _ _ h => exact hnone word hword h

/-- Every read takes the fewest bits that are enough for it, or all. -/
theorem apply_reads (k : Read) (r : BitReader) :
    ∃ taken, Reads k r (k.apply r).1 taken (k.apply r).2 := by
  cases k with
  | bit => exact bit_reads r
  | receive n => exact receive_reads n r
  | decode t => exact decode_reads t r

theorem Reads.takes (h : Reads k r answer taken s) : Takes taken r s := by
  cases h with
  | served _ _ htakes => exact htakes
  | exhausted _ htakes => exact htakes

theorem not_serves_endOfData {word : List Bool} : ¬ k.Serves word (.failed .endOfData) := by
  generalize hanswer : Answer.failed .endOfData = answer
  intro hserves
  cases hserves with
  | bit => cases hanswer
  | receive => cases hanswer
  | decode t word h =>
    rw [lookup] at hanswer
    split at hanswer <;> cases hanswer

/-- A read fails at the end of the data exactly if the bits up to it are not enough. -/
theorem apply_eq_endOfData_iff : (k.apply r).1 = .failed .endOfData ↔
    ∀ word other, word <+: r.readable → ¬ k.Serves word other := by
  obtain ⟨taken, h⟩ := apply_reads k r
  constructor
  · intro hfailed
    rw [hfailed] at h
    cases h with
    | served hserves => exact absurd hserves not_serves_endOfData
    | exhausted hnone => exact hnone
  · intro hnone
    generalize (k.apply r).1 = answer at h
    cases h with
    | served hserves _ htakes => exact absurd hserves (hnone _ _ (takes_iff_isPrefix.mp htakes).1)
    | exhausted => rfl

theorem Reads.readable_eq (h : Reads k r answer taken s) :
    s.readable = r.readable.drop taken.length := by
  rw [(takes_iff_isPrefix.mp h.takes).2, readable_advance]

/-- A read that fails at the end of the data leaves no bits. -/
theorem readable_of_endOfData (h : (k.apply r).1 = .failed .endOfData) :
    (k.apply r).2.readable = [] := by
  obtain ⟨taken, hreads⟩ := apply_reads k r
  have hdrop := hreads.readable_eq
  rw [h] at hreads
  cases hreads with
  | served hserves => exact absurd hserves not_serves_endOfData
  | exhausted => rw [hdrop, List.drop_length]

/-- Without bits a read fails, unless it asks for none. -/
theorem apply_of_readable_nil (h : r.readable = []) (hk : k ≠ .receive 0) :
    (k.apply r).1 = .failed .endOfData := by
  rw [apply_eq_endOfData_iff, h]
  intro word other hword hserves
  obtain rfl := List.eq_nil_of_prefix_nil hword
  cases hserves with
  | receive n _ hn => exact hk (congrArg Read.receive (Fin.ext hn.symm))
  | decode t _ hstops => exact hstops.1 rfl

end ImageAudit.Jpeg.BitReader
