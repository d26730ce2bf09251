import ImageAudit.Proofs.Bytes.Cursor
import ImageAudit.Proofs.Checked.Jpeg.Payload

/-! Segments that hold any number of definitions one behind the other. Every payload consists of
valid definitions and what stands behind the last of them, where no other one begins. A loop that
reads definitions until it fails stores exactly those, and it fails unless nothing stands behind
them. -/
namespace ImageAudit.Jpeg

structure DefinitionFormat (D : Type) where
  Valid : D → Prop
  bytes : D → List UInt8
  bytes_ne_nil : ∀ d, bytes d ≠ []

namespace DefinitionFormat

variable {D T S : Type} {format : DefinitionFormat D} {payload rest : List UInt8} {defs : List D}

/-- The payload holds the definitions, and no valid one begins behind them. -/
structure Splits (format : DefinitionFormat D) (payload : List UInt8) (defs : List D)
    (rest : List UInt8) : Prop where
  valid : ∀ d ∈ defs, format.Valid d
  payload_eq : payload = defs.flatMap format.bytes ++ rest
  stops : ∀ d, format.Valid d → ¬ format.bytes d <+: rest

theorem Splits.cons {d : D} (hd : format.Valid d) (h : format.Splits payload defs rest) :
    format.Splits (format.bytes d ++ payload) (d :: defs) rest where
  valid := List.forall_mem_cons.mpr ⟨hd, h.valid⟩
  payload_eq := by rw [h.payload_eq, List.flatMap_cons, List.append_assoc]
  stops := h.stops

theorem exists_splits (format : DefinitionFormat D) (payload : List UInt8) :
    ∃ defs rest, format.Splits payload defs rest := by
  -- any definition that stands in front is split off; which one makes no difference
  induction hlength : payload.length using Nat.strongRecOn generalizing payload with
  | ind n ih =>
    by_cases hstarts : ∃ d, format.Valid d ∧ format.bytes d <+: payload
    · obtain ⟨d, hd, more, rfl⟩ := hstarts
      have hpos := List.length_pos_iff.mpr (format.bytes_ne_nil d)
      rw [List.length_append] at hlength
      obtain ⟨defs, rest, hsplits⟩ := ih more.length (by omega) more rfl
      exact ⟨d :: defs, rest, hsplits.cons hd⟩
    · exact ⟨[], payload, List.forall_mem_nil _, rfl,
        fun d hd hd' => hstarts ⟨d, hd, hd'⟩⟩

/-- Behind nothing but definitions there is nothing. -/
theorem Splits.of_flatMap (hvalid : ∀ d ∈ defs, format.Valid d)
    (hpayload : payload = defs.flatMap format.bytes) : format.Splits payload defs [] where
  valid := hvalid
  payload_eq := hpayload.trans (List.append_nil _).symm
  stops d _ hstarts := format.bytes_ne_nil d (List.eq_nil_of_prefix_nil hstarts)

/-- One definition is read: a valid one gives its table, and anything else is found fault with. -/
structure ReadBy (format : DefinitionFormat D) (table : D → T)
    (read : Segment → Except (List Finding) T × Segment) : Prop where
  of_valid {d : D} {cursor : Segment} {more : List UInt8} (h : format.Valid d)
    (hrest : cursor.rest = format.bytes d ++ more) :
    (read cursor).1 = .ok (table d) ∧ (read cursor).2.rest = more
  exists_valid {t : T} {cursor : Segment} (hleft : cursor.left ≠ 0)
    (h : (read cursor).1 = .ok t) : ∃ d, format.Valid d ∧ format.bytes d <+: cursor.rest
  ne_nil {findings : List Finding} {cursor : Segment} (h : (read cursor).1 = .error findings) :
    findings ≠ []

/-- Definitions are read up to the end or the first failure, and each one is stored. -/
structure LoopOf (read : Segment → Except (List Finding) T × Segment) (put : S → T → S)
    (loop : Segment → S → S × Segment × List Finding) : Prop where
  of_end {cursor : Segment} (s : S) (hleft : cursor.left = 0) : loop cursor s = (s, cursor, [])
  of_error {cursor : Segment} {findings : List Finding} (s : S) (hleft : cursor.left ≠ 0)
    (h : (read cursor).1 = .error findings) : loop cursor s = (s, (read cursor).2, findings)
  of_ok {cursor : Segment} {t : T} (s : S) (hleft : cursor.left ≠ 0)
    (h : (read cursor).1 = .ok t) : loop cursor s = loop (read cursor).2 (put s t)

variable {table : D → T} {read : Segment → Except (List Finding) T × Segment} {put : S → T → S}
  {loop : Segment → S → S × Segment × List Finding} {cursor : Segment}

/-- Where no definition begins, nothing is stored. -/
theorem LoopOf.of_stops (hloop : LoopOf read put loop) (hread : format.ReadBy table read)
    (hstops : ∀ d, format.Valid d → ¬ format.bytes d <+: cursor.rest) (s : S) :
    (loop cursor s).1 = s ∧ ((loop cursor s).2.2 = [] ↔ cursor.rest = []) := by
  have hrest : cursor.rest = [] ↔ cursor.left = 0 := by
    rw [← List.length_eq_zero_iff, Segment.length_rest]
  by_cases hleft : cursor.left = 0
  · rw [hloop.of_end s hleft]
    exact ⟨rfl, iff_of_true rfl (hrest.mpr hleft)⟩
  · cases hresult : (read cursor).1 with
    | ok t =>
      obtain ⟨d, hd, hstarts⟩ := hread.exists_valid hleft hresult
      exact absurd hstarts (hstops d hd)
    | error findings =>
      rw [hloop.of_error s hleft hresult]
      exact ⟨rfl, iff_of_false (hread.ne_nil hresult) (mt hrest.mp hleft)⟩

/-- The definitions that stand in front are stored one after another, and all is well if nothing
else stands there. -/
theorem LoopOf.of_splits (hloop : LoopOf read put loop) (hread : format.ReadBy table read)
    (h : format.Splits cursor.rest defs rest) (s : S) :
    (loop cursor s).1 = (defs.map table).foldl put s ∧ ((loop cursor s).2.2 = [] ↔ rest = []) := by
  induction defs generalizing cursor s with
  | nil =>
    have hrest : cursor.rest = rest := h.payload_eq
    subst hrest
    exact hloop.of_stops hread h.stops s
  | cons d defs ih =>
    obtain ⟨hd, hdefs⟩ := List.forall_mem_cons.mp h.valid
    have hpayload := h.payload_eq
    rw [List.flatMap_cons, List.append_assoc] at hpayload
    obtain ⟨hok, hmore⟩ := hread.of_valid hd hpayload
    have hleft : cursor.left ≠ 0 := by
      rw [← Segment.length_rest, hpayload, List.length_append]
      have := List.length_pos_iff.mpr (format.bytes_ne_nil d)
      omega
    -- the cursor has moved behind the first definition, where the others stand
    rw [hloop.of_ok s hleft hok, List.map_cons, List.foldl_cons]
    exact ih ⟨hdefs, hmore, h.stops⟩ (put s (table d))

/-- Nothing is found exactly if the payload consists of valid definitions. -/
theorem LoopOf.findings_eq_nil_iff (hloop : LoopOf read put loop)
    (hread : format.ReadBy table read) (cursor : Segment) (s : S) :
    (loop cursor s).2.2 = [] ↔
      ∃ defs : List D, (∀ d ∈ defs, format.Valid d) ∧ cursor.rest = defs.flatMap format.bytes := by
  constructor
  · intro hclean
    obtain ⟨defs, rest, hsplits⟩ := format.exists_splits cursor.rest
    obtain rfl := (hloop.of_splits hread hsplits s).2.mp hclean
    exact ⟨defs, hsplits.valid, hsplits.payload_eq.trans (List.append_nil _)⟩
  · rintro ⟨defs, hvalid, hpayload⟩
    exact (hloop.of_splits hread (.of_flatMap hvalid hpayload) s).2.mpr rfl

end DefinitionFormat

/-- If what is stored last replaces what was there, the last one of a place is found there. -/
theorem foldl_last {S T : Type} {put : S → T → S} (look : S → Option T) (hits : T → Bool)
    {tables : List T}
    (hlook : ∀ s, ∀ t ∈ tables, look (put s t) = if hits t then some t else look s) (s : S) :
    look (tables.foldl put s) = (tables.reverse.find? hits).or (look s) := by
  induction tables generalizing s with
  | nil => rfl
  | cons t tables ih =>
    have hlater := ih (fun s t' ht' => hlook s t' (List.mem_cons_of_mem t ht')) (put s t)
    rw [List.foldl_cons, hlater, hlook s t List.mem_cons_self, List.reverse_cons,
      List.find?_append, Option.or_assoc, List.find?_singleton]
    cases hits t <;> rfl

def nibbles (high low : Nat) : UInt8 := UInt8.ofNat (16 * high + low)

theorem toNat_nibbles {high low : Nat} (hhigh : high < 16) (hlow : low < 16) :
    (nibbles high low).toNat = 16 * high + low := by
  rw [nibbles, UInt8.toNat_ofNat']
  omega

/-- Every byte consists of two such numbers. -/
theorem nibbles_div_mod (b : UInt8) : nibbles (b.toNat / 16) (b.toNat % 16) = b := by
  have hlt := b.toNat_lt
  apply UInt8.toNat_inj.mp
  rw [toNat_nibbles (by omega) (by omega)]
  omega

variable {cursor : Segment} {more : List UInt8}

theorem uint_of_nibbles {high low : Nat} (hhigh : high < 16) (hlow : low < 16)
    (h : cursor.rest = nibbles high low :: more) :
    (cursor.uint 1).1 / 16 = high ∧ (cursor.uint 1).1 % 16 = low ∧
      (cursor.uint 1).2.rest = more := by
  obtain ⟨hvalue, hmore⟩ := Segment.uint_one_of_rest h
  rw [toNat_nibbles hhigh hlow] at hvalue
  exact ⟨by omega, by omega, hmore⟩

theorem exists_uint_of_left (h : cursor.left ≠ 0) :
    ∃ b more, cursor.rest = b :: more ∧ (cursor.uint 1).1 = b.toNat ∧
      (cursor.uint 1).2.rest = more := by
  obtain ⟨b, more, hrest⟩ := List.exists_cons_of_length_pos
    (cursor.length_rest.symm ▸ Nat.pos_of_ne_zero h)
  exact ⟨b, more, hrest, Segment.uint_one_of_rest hrest⟩

end ImageAudit.Jpeg
