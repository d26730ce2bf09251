import ImageAudit.Jpeg.Huffman.Table

/-! The code book of a table. The canonical codes that a definition assigns to its symbols are the
ones that are found again by length and code, and no code begins with another. -/
namespace ImageAudit.Jpeg.Huffman

def valueFrom (value : Nat) (bits : List Bool) : Nat :=
  bits.foldl (fun v b => 2 * v + b.toNat) value

theorem shiftLeft_le_shiftLeft {m n k : Nat} (h : m ≤ n) : m <<< k ≤ n <<< k := by
  rw [Nat.shiftLeft_eq, Nat.shiftLeft_eq]
  exact Nat.mul_le_mul_right _ h

/-- Further bits leave a number within its range of that length. -/
theorem valueFrom_lt (value : Nat) (bits : List Bool) :
    valueFrom value bits < (value + 1) <<< bits.length := by
  induction bits generalizing value with
  | nil => simp [valueFrom]
  | cons b bits ih =>
    have hb := Bool.toNat_le b
    have hstep : 2 * value + b.toNat + 1 ≤ 2 * (value + 1) := by omega
    rw [List.length_cons, Nat.shiftLeft_succ_inside]
    exact Nat.lt_of_lt_of_le (ih _) (shiftLeft_le_shiftLeft hstep)

/-- Further bits leave a number at least as large as it is with zeros behind it. -/
theorem le_valueFrom (value : Nat) (bits : List Bool) :
    value <<< bits.length ≤ valueFrom value bits := by
  induction bits generalizing value with
  | nil => simp [valueFrom]
  | cons b bits ih =>
    rw [List.length_cons, Nat.shiftLeft_succ_inside]
    exact Nat.le_trans (shiftLeft_le_shiftLeft (Nat.le_add_right _ _)) (ih _)

theorem valueFrom_append (value : Nat) (first second : List Bool) :
    valueFrom value (first ++ second) = valueFrom (valueFrom value first) second :=
  List.foldl_append

/-- The code lengths of the symbols whose codes have more than `k` bits. -/
def sizesFrom (k : Nat) (counts : List Nat) : List Nat :=
  (counts.zipIdx k).flatMap fun (count, i) => List.replicate count (i + 1)

theorem sizesFrom_cons (k count : Nat) (counts : List Nat) :
    sizesFrom k (count :: counts) = List.replicate count (k + 1) ++ sizesFrom (k + 1) counts := by
  rw [sizesFrom, List.zipIdx_cons, List.flatMap_cons, sizesFrom]

theorem lt_of_mem_sizesFrom {k size : Nat} {counts : List Nat} (h : size ∈ sizesFrom k counts) :
    k < size := by
  induction counts generalizing k with
  | nil => cases h
  | cons count counts ih =>
    rw [sizesFrom_cons] at h
    rcases List.mem_append.mp h with h | h
    · rw [(List.mem_replicate.mp h).2]
      exact Nat.lt_succ_self k
    · exact Nat.lt_of_succ_lt (ih h)

theorem length_sizesFrom (k : Nat) (counts : List Nat) :
    (sizesFrom k counts).length = total counts := by
  induction counts generalizing k with
  | nil => rfl
  | cons count counts ih =>
    rw [sizesFrom_cons, List.length_append, List.length_replicate, ih]
    rfl

/-- Of ascending sizes the first ones are taken together. -/
private theorem takeWhile_sizesFrom (k count : Nat) (counts : List Nat) :
    (sizesFrom k (count :: counts)).takeWhile (· == k + 1) = List.replicate count (k + 1) := by
  rw [sizesFrom_cons, List.takeWhile_append_of_pos]
  · have hrest : (sizesFrom (k + 1) counts).takeWhile (· == k + 1) = [] := by
      cases h : sizesFrom (k + 1) counts with
      | nil => rfl
      | cons size rest =>
        have hlt : k + 1 < size := lt_of_mem_sizesFrom (h ▸ List.mem_cons_self)
        rw [List.takeWhile_cons_of_neg]
        simp
        omega
    rw [hrest, List.append_nil]
  · intro size hmem
    simp [(List.mem_replicate.mp hmem).2]

/-- The symbols of the first length get consecutive codes, unless there is no room for them. -/
theorem assign_cons (lengths k first count : Nat) (counts : List Nat) :
    assign (lengths + 1) (k + 1) first (sizesFrom k (count :: counts)) =
      if 1 <<< (k + 1) ≤ first + count then .error (.invalidCodeLengths (k + 1))
      else (assign lengths (k + 1 + 1) (2 * (first + count)) (sizesFrom (k + 1) counts)).map
        (List.range' first count ++ ·) := by
  rw [assign, takeWhile_sizesFrom, List.length_replicate, sizesFrom_cons,
    List.drop_left' List.length_replicate]

/-- The codes of the first length are consecutive, and all of them fit that length. -/
theorem assign_sizesFrom {k first count : Nat} {counts codes : List Nat}
    (h : assign (count :: counts).length (k + 1) first (sizesFrom k (count :: counts)) =
      .ok codes) :
    first + count < 1 <<< (k + 1) ∧ ∃ rest, codes = List.range' first count ++ rest ∧
      assign counts.length (k + 1 + 1) (2 * (first + count)) (sizesFrom (k + 1) counts) =
        .ok rest := by
  rw [List.length_cons, assign_cons] at h
  split at h
  · cases h
  · next hfits =>
    cases hrest : assign counts.length (k + 1 + 1) (2 * (first + count))
        (sizesFrom (k + 1) counts) with
    | error e =>
      rw [hrest] at h
      cases h
    | ok rest =>
      rw [hrest] at h
      exact ⟨Nat.lt_of_not_le hfits, rest, (Except.ok.inj h).symm, rfl⟩

/-- As many codes are assigned as there are sizes. -/
theorem length_codes_of_assign {k first : Nat} {counts codes : List Nat}
    (h : assign counts.length (k + 1) first (sizesFrom k counts) = .ok codes) :
    codes.length = (sizesFrom k counts).length := by
  induction counts generalizing k first codes with
  | nil =>
    obtain rfl := Except.ok.inj h
    rfl
  | cons count counts ih =>
    obtain ⟨_, rest, rfl, hrest⟩ := assign_sizesFrom h
    rw [sizesFrom_cons, List.length_append, List.length_append, List.length_range',
      List.length_replicate, ih hrest]

/-- The codes of each length are those of its group. -/
theorem codes_eq_of_assign {k first start : Nat} {counts codes : List Nat}
    (h : assign counts.length (k + 1) first (sizesFrom k counts) = .ok codes) :
    codes = (groupsFrom first start counts).flatMap fun g => List.range' g.first g.count := by
  induction counts generalizing k first start codes with
  | nil => exact (Except.ok.inj h).symm
  | cons count counts ih =>
    obtain ⟨_, rest, rfl, hrest⟩ := assign_sizesFrom h
    rw [groupsFrom, List.flatMap_cons, ← ih hrest]

/-- Every code fits its length. -/
theorem fits_of_assign {k first start m : Nat} {counts codes : List Nat} {g : Group}
    (h : assign counts.length (k + 1) first (sizesFrom k counts) = .ok codes)
    (hg : (groupsFrom first start counts)[m]? = some g) :
    g.first + g.count < 1 <<< (k + 1 + m) := by
  induction counts generalizing k first start m codes with
  | nil => cases hg
  | cons count counts ih =>
    obtain ⟨hfits, rest, _, hrest⟩ := assign_sizesFrom h
    cases m with
    | zero =>
      obtain rfl := Option.some.inj hg
      exact hfits
    | succ m =>
      have hlater := ih hrest hg
      rwa [Nat.add_right_comm] at hlater

theorem le_start_of_mem_groupsFrom {code start : Nat} {counts : List Nat} {g : Group}
    (h : g ∈ groupsFrom code start counts) : start ≤ g.start := by
  induction counts generalizing code start with
  | nil => cases h
  | cons count counts ih =>
    rcases List.mem_cons.mp h with rfl | h
    · exact Nat.le_refl _
    · exact Nat.le_trans (Nat.le_add_right _ _) (ih h)

theorem length_groupsFrom (code start : Nat) (counts : List Nat) :
    (groupsFrom code start counts).length = counts.length := by
  induction counts generalizing code start with
  | nil => rfl
  | cons count counts ih => rw [groupsFrom, List.length_cons, List.length_cons, ih]

/-- The codes of later groups are larger by as many bits as they are longer. -/
theorem le_first_of_groupsFrom {code start m : Nat} {counts : List Nat} {g : Group}
    (h : (groupsFrom code start counts)[m]? = some g) : code <<< m ≤ g.first := by
  induction counts generalizing code start m with
  | nil => cases h
  | cons count counts ih =>
    cases m with
    | zero =>
      obtain rfl := Option.some.inj h
      simp
    | succ m =>
      rw [Nat.shiftLeft_succ_inside]
      exact Nat.le_trans (shiftLeft_le_shiftLeft (by omega)) (ih h)

/-- The codes of a group go on where those of the group before it stop. -/
theorem first_succ_of_groupsFrom {code start m : Nat} {counts : List Nat} {g next : Group}
    (hg : (groupsFrom code start counts)[m]? = some g)
    (hnext : (groupsFrom code start counts)[m + 1]? = some next) :
    next.first = 2 * (g.first + g.count) := by
  induction counts generalizing code start m with
  | nil => cases hg
  | cons count counts ih =>
    cases m with
    | zero =>
      obtain rfl := Option.some.inj hg
      cases counts with
      | nil => cases hnext
      | cons count' counts =>
        obtain rfl := Option.some.inj hnext
        rfl
    | succ m => exact ih hg hnext

/-- A group leaves all longer codes above its own. -/
theorem mul_le_first_of_groupsFrom {code start m n : Nat} {counts : List Nat} {g h : Group}
    (hg : (groupsFrom code start counts)[m]? = some g)
    (hh : (groupsFrom code start counts)[m + n + 1]? = some h) :
    (g.first + g.count) <<< (n + 1) ≤ h.first := by
  induction counts generalizing code start m with
  | nil => cases hg
  | cons count counts ih =>
    cases m with
    | zero =>
      obtain rfl := Option.some.inj hg
      rw [Nat.zero_add] at hh
      have hle : (2 * (code + count)) <<< n ≤ h.first := le_first_of_groupsFrom hh
      rw [Nat.shiftLeft_succ_inside]
      exact hle
    | succ m =>
      rw [Nat.add_right_comm m 1 n] at hh
      exact ih hg hh

/-- The symbol at index `i` is assigned the code `code` of `length` bits. -/
def CodeAt (sizes codes : List Nat) (i length code : Nat) : Prop :=
  sizes[i]? = some length ∧ codes[i]? = some code

/-- The codes of one length stand in front of the longer ones. -/
theorem codeAt_append {first count size i length code : Nat} {sizes codes : List Nat} :
    CodeAt (List.replicate count size ++ sizes) (List.range' first count ++ codes) i length code ↔
      (i < count ∧ length = size ∧ code = first + i) ∨
      (count ≤ i ∧ CodeAt sizes codes (i - count) length code) := by
  rw [CodeAt, CodeAt]
  by_cases hi : i < count
  · rw [List.getElem?_append_left (by simpa using hi),
      List.getElem?_append_left (by simpa using hi), List.getElem?_replicate, if_pos hi,
      List.getElem?_range' hi]
    simp only [Option.some.injEq, hi, Nat.not_le.mpr hi, true_and, false_and, or_false,
      Nat.one_mul, eq_comm]
  · have hle := Nat.le_of_not_lt hi
    rw [List.getElem?_append_right (by simpa using hle),
      List.getElem?_append_right (by simpa using hle), List.length_replicate,
      List.length_range']
    simp only [hi, hle, true_and, false_and, false_or]

def InGroup (groups : List Group) (k start i length code : Nat) : Prop :=
  ∃ m g, groups[m]? = some g ∧ length = k + 1 + m ∧ g.first ≤ code ∧ code < g.first + g.count ∧
    start + i = g.start + (code - g.first)

private theorem inGroup_cons {count first start k i length code : Nat} {groups : List Group}
    (hstart : ∀ g ∈ groups, start + count ≤ g.start) :
    InGroup (⟨count, first, start⟩ :: groups) k start i length code ↔
      (i < count ∧ length = k + 1 ∧ code = first + i) ∨
      (count ≤ i ∧ InGroup groups (k + 1) (start + count) (i - count) length code) := by
  constructor
  · intro hcoded
    rcases hcoded with ⟨m, g, hg, hlength, hle, hlt, hindex⟩
    cases m with
    | zero =>
      obtain rfl := Option.some.inj hg
      dsimp only at hle hlt hindex
      exact .inl ⟨by omega, hlength, by omega⟩
    | succ m =>
      have hmem := hstart g (List.mem_of_getElem? hg)
      exact .inr ⟨by omega, m, g, hg, by omega, hle, hlt, by omega⟩
  · rintro (⟨hi, hlength, hcode⟩ | ⟨hi, m, g, hg, hlength, hle, hlt, hindex⟩)
    · exact ⟨0, _, rfl, hlength, by simp; omega, by simp; omega, by simp; omega⟩
    · exact ⟨m + 1, g, hg, by omega, hle, hlt, by omega⟩

/-- Sizes and codes place each symbol in the group where it is looked up. -/
theorem assign_inGroup {counts codes : List Nat} {k first : Nat}
    (h : assign counts.length (k + 1) first (sizesFrom k counts) = .ok codes)
    (start i length code : Nat) :
    CodeAt (sizesFrom k counts) codes i length code ↔
      InGroup (groupsFrom first start counts) k start i length code := by
  induction counts generalizing k first start codes i with
  | nil =>
    constructor
    · intro hcoded
      rcases hcoded with ⟨hsize, _⟩
      cases hsize
    · intro hcoded
      rcases hcoded with ⟨m, g, hg, _⟩
      cases hg
  | cons count counts ih =>
    obtain ⟨_, rest, rfl, hrest⟩ := assign_sizesFrom h
    rw [groupsFrom, inGroup_cons fun g hg => le_start_of_mem_groupsFrom hg, ← ih hrest,
      sizesFrom_cons, codeAt_append]

namespace Table

/-- The table was built from a definition with as many symbols as codes. -/
def Built (t : Table) : Prop :=
  ∃ tableClass id counts symbols, counts.length = maxLength ∧
    symbols.size = total counts ∧ build tableClass id counts symbols = .ok t

/-- The symbol is coded by `bits`: they have the length and spell the code that the definition
assigns to it. -/
def Codeword (t : Table) (symbol : UInt8) (bits : List Bool) : Prop :=
  ∃ i : Nat, t.symbols[i]? = some symbol ∧ t.sizes[i]? = some bits.length ∧
    t.codes[i]? = some (valueFrom 0 bits)

variable {t : Table}

theorem eq_of_build {tableClass id : Nat} {counts : List Nat} {symbols : Array UInt8} {t : Table}
    (h : build tableClass id counts symbols = .ok t) :
    total counts ≤ maxSymbols ∧ ∃ codes, Huffman.codes (Huffman.sizes counts) = .ok codes ∧
      t = ⟨tableClass, id, counts, symbols, Huffman.sizes counts, codes,
        (Huffman.groups counts).toArray⟩ := by
  rw [build] at h
  split at h
  · cases h
  · next htotal =>
    cases hcodes : Huffman.codes (Huffman.sizes counts) with
    | error e =>
      simp only [hcodes] at h
      cases h
    | ok codes =>
      simp only [hcodes] at h
      exact ⟨Nat.le_of_not_lt htotal, codes, rfl, (Except.ok.inj h).symm⟩

theorem Built.parts (h : t.Built) :
    ∃ counts, assign counts.length 1 0 (sizesFrom 0 counts) = .ok t.codes ∧
      t.sizes = sizesFrom 0 counts ∧ counts.length = maxLength ∧ t.symbols.size = total counts ∧
      ∀ m, t.group? (m + 1) = (groupsFrom 0 0 counts)[m]? := by
  obtain ⟨tableClass, id, counts, symbols, hcounts, hsymbols, hbuild⟩ := h
  obtain ⟨_, codes, hcodes, rfl⟩ := eq_of_build hbuild
  refine ⟨counts, hcounts.symm ▸ hcodes, rfl, hcounts, hsymbols, fun m => ?_⟩
  rw [group?, if_neg (Nat.succ_ne_zero m), Nat.add_sub_cancel, List.getElem?_toArray]
  rfl

/-- A symbol is looked up exactly by the code that was assigned to it. -/
theorem Built.symbol?_eq_some_iff (h : t.Built) {length code : Nat} {symbol : UInt8} :
    t.symbol? length code = some symbol ↔
      ∃ i : Nat, t.symbols[i]? = some symbol ∧ CodeAt t.sizes t.codes i length code := by
  obtain ⟨counts, hassign, hsizes, _, _, hgroup⟩ := h.parts
  simp only [hsizes, assign_inGroup hassign 0]
  constructor
  · intro hsymbol
    rw [symbol?] at hsymbol
    cases length with
    | zero => cases hsymbol
    | succ m =>
      rw [hgroup] at hsymbol
      cases hg : (groupsFrom 0 0 counts)[m]? with
      | none =>
        rw [hg] at hsymbol
        cases hsymbol
      | some g =>
        rw [hg] at hsymbol
        dsimp only at hsymbol
        split at hsymbol
        · next hbounds =>
          exact ⟨_, hsymbol, m, g, hg, by omega, hbounds.1, hbounds.2, Nat.zero_add _⟩
        · cases hsymbol
  · intro hcoded
    rcases hcoded with ⟨i, hsymbol, m, g, hg, hlength, hle, hlt, hindex⟩
    rw [symbol?, hlength, Nat.zero_add, Nat.add_comm 1, hgroup, hg]
    dsimp only
    rw [if_pos ⟨hle, hlt⟩, ← hindex, Nat.zero_add]
    exact hsymbol

/-- A code is looked up exactly as it was assigned. -/
theorem Built.codeword_iff (h : t.Built) {symbol : UInt8} {bits : List Bool} :
    t.Codeword symbol bits ↔ t.symbol? bits.length (valueFrom 0 bits) = some symbol :=
  h.symbol?_eq_some_iff.symm

/-- Codes have one to sixteen bits. -/
theorem Built.length_le (h : t.Built) {length code : Nat} {symbol : UInt8}
    (hsymbol : t.symbol? length code = some symbol) : 0 < length ∧ length ≤ maxLength := by
  obtain ⟨counts, _, _, hcounts, _, hgroup⟩ := h.parts
  rw [symbol?] at hsymbol
  cases length with
  | zero => cases hsymbol
  | succ m =>
    rw [hgroup] at hsymbol
    cases hg : (groupsFrom 0 0 counts)[m]? with
    | none =>
      rw [hg] at hsymbol
      cases hsymbol
    | some g =>
      have hlt := (List.getElem?_eq_some_iff.mp hg).1
      rw [length_groupsFrom, hcounts] at hlt
      exact ⟨Nat.succ_pos m, hlt⟩

/-- A code that has a symbol is at most the largest one of its length. -/
theorem le_maxCode_of_symbol {length code : Nat} {symbol : UInt8}
    (h : t.symbol? length code = some symbol) : (code : Int) ≤ t.maxCode length := by
  rw [symbol?] at h
  rw [maxCode]
  cases hg : t.group? length with
  | none =>
    rw [hg] at h
    cases h
  | some g =>
    rw [hg] at h
    dsimp only at h ⊢
    split at h
    · next hbounds =>
      rw [if_neg (by omega)]
      omega
    · cases h

/-- No proper beginning of a code is a code, nor is it taken for one. -/
theorem Built.maxCode_lt (h : t.Built) {length code : Nat} (hlength : 0 < length) {bits : List Bool}
    (hbits : bits ≠ []) {symbol : UInt8}
    (hsymbol : t.symbol? (length + bits.length) (valueFrom code bits) = some symbol) :
    t.maxCode length < code := by
  obtain ⟨counts, _, _, _, _, hgroup⟩ := h.parts
  obtain ⟨m, rfl⟩ : ∃ m, length = m + 1 := ⟨length - 1, by omega⟩
  obtain ⟨n, hn⟩ : ∃ n, bits.length = n + 1 :=
    ⟨bits.length - 1, by have := List.length_pos_iff.mpr hbits; omega⟩
  have hlt := valueFrom_lt code bits
  rw [symbol?] at hsymbol
  rw [hn, show m + 1 + (n + 1) = m + n + 1 + 1 by omega, hgroup] at hsymbol
  rw [hn] at hlt
  cases hlong : (groupsFrom 0 0 counts)[m + n + 1]? with
  | none =>
    rw [hlong] at hsymbol
    cases hsymbol
  | some long =>
    rw [hlong] at hsymbol
    dsimp only at hsymbol
    split at hsymbol
    · next hbounds =>
      have hm : m < (groupsFrom 0 0 counts).length := by
        have := (List.getElem?_eq_some_iff.mp hlong).1
        omega
      have hg := List.getElem?_eq_getElem hm
      have hle := Nat.le_trans (mul_le_first_of_groupsFrom hg hlong) hbounds.1
      rw [Nat.shiftLeft_eq] at hle hlt
      have hcode := Nat.lt_of_mul_lt_mul_right (Nat.lt_of_le_of_lt hle hlt)
      rw [maxCode, hgroup, hg]
      dsimp only
      split <;> omega
    · cases hsymbol

/-- The groups of a table follow one another without a gap. -/
theorem Built.first_succ (h : t.Built) {length : Nat} (hlength : 0 < length) {g next : Group}
    (hg : t.group? length = some g) (hnext : t.group? (length + 1) = some next) :
    next.first = 2 * (g.first + g.count) := by
  obtain ⟨counts, _, _, _, _, hgroup⟩ := h.parts
  obtain ⟨m, rfl⟩ := Nat.exists_eq_succ_of_ne_zero (Nat.ne_of_gt hlength)
  rw [hgroup] at hg hnext
  exact first_succ_of_groupsFrom hg hnext

/-- The number of `length` bits lies at or behind the first code of that length. -/
def Reaches (t : Table) (length code : Nat) : Prop :=
  ∀ g, t.group? length = some g → g.first ≤ code

theorem Built.reaches_one (h : t.Built) (code : Nat) : t.Reaches 1 code := by
  obtain ⟨counts, _, _, _, _, hgroup⟩ := h.parts
  intro g hg
  rw [hgroup] at hg
  cases counts with
  | nil => cases hg
  | cons count counts =>
    obtain rfl := Option.some.inj hg
    exact Nat.zero_le code

/-- A number behind all codes of its length stays behind the codes that one bit more starts with. -/
theorem Built.reaches_succ (h : t.Built) {length code : Nat} (hlength : 0 < length)
    (hreaches : t.Reaches length code) (hbehind : t.maxCode length < code) (bit : Nat) :
    t.Reaches (length + 1) (2 * code + bit) := by
  obtain ⟨counts, _, _, _, _, hgroup⟩ := h.parts
  obtain ⟨m, rfl⟩ := Nat.exists_eq_succ_of_ne_zero (Nat.ne_of_gt hlength)
  intro next hnext
  obtain ⟨g, hg⟩ : ∃ g, t.group? (m + 1) = some g := by
    have hlt := (List.getElem?_eq_some_iff.mp ((hgroup (m + 1)).symm.trans hnext)).1
    exact ⟨_, (hgroup m).trans (List.getElem?_eq_getElem (Nat.lt_of_succ_lt hlt))⟩
  have hfirst := h.first_succ hlength hg hnext
  have hle := hreaches g hg
  rw [maxCode, hg] at hbehind
  dsimp only at hbehind
  split at hbehind <;> omega

/-- Where a number does not exceed the largest code of its length, there are such codes. -/
theorem exists_group_of_le_maxCode {length code : Nat} (h : (code : Int) ≤ t.maxCode length) :
    ∃ g, t.group? length = some g ∧ code < g.first + g.count := by
  rw [maxCode] at h
  split at h
  · next g hg =>
    split at h
    · omega
    · exact ⟨g, hg, by omega⟩
  · omega

/-- A number that lies among the codes of its length is one of them, and it has a symbol. -/
theorem Built.exists_symbol (h : t.Built) {length code : Nat} (hlength : 0 < length)
    (hreaches : t.Reaches length code) (hle : (code : Int) ≤ t.maxCode length) :
    ∃ symbol, t.symbol? length code = some symbol := by
  obtain ⟨counts, hassign, hsizes, _, hsymbols, hgroup⟩ := h.parts
  obtain ⟨m, rfl⟩ := Nat.exists_eq_succ_of_ne_zero (Nat.ne_of_gt hlength)
  obtain ⟨g, hg, hlast⟩ := exists_group_of_le_maxCode hle
  have hfirst := hreaches g hg
  have hcode : CodeAt t.sizes t.codes (g.start + (code - g.first)) (m + 1) code := by
    rw [hsizes, assign_inGroup hassign 0]
    exact ⟨m, g, (hgroup m).symm.trans hg, by omega, hfirst, hlast, Nat.zero_add _⟩
  have hlt := (List.getElem?_eq_some_iff.mp hcode.1).1
  rw [hsizes, length_sizesFrom, ← hsymbols] at hlt
  exact ⟨_, h.symbol?_eq_some_iff.mpr ⟨_, Array.getElem?_eq_getElem hlt, hcode⟩⟩

end Table

def luminanceTable : Table where
  tableClass := 0
  id := 0
  counts := [0, 1, 5, 1, 1, 1, 1, 1, 1, 0, 0, 0, 0, 0, 0, 0]
  symbols := #[0, 1, 2, 3, 4, 5, 6, 7, 8, 9, 10, 11]
  sizes := [2, 3, 3, 3, 3, 3, 4, 5, 6, 7, 8, 9]
  codes := [0, 2, 3, 4, 5, 6, 14, 30, 62, 126, 254, 510]
  groups := (groups [0, 1, 5, 1, 1, 1, 1, 1, 1, 0, 0, 0, 0, 0, 0, 0]).toArray

theorem built_luminanceTable : luminanceTable.Built :=
  ⟨0, 0, luminanceTable.counts, luminanceTable.symbols, rfl, rfl, rfl⟩

end ImageAudit.Jpeg.Huffman
