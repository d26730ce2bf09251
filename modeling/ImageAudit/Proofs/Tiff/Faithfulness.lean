import ImageAudit.Proofs.Tiff.Entries
import ImageAudit.Proofs.Tiff.Links

/-! Faithfulness. Every directory that a walk adds to a description says what the source stores at
its offset, also in files with any number of defects, and values that were not loaded are told as
such. -/
namespace ImageAudit.Tiff

def FieldType.values (t : FieldType) (order : ByteOrder) (raw : ByteArray) : List Value :=
  (t.elements raw).map (t.decode order)

/-- What a field holds when `area` is the value area of its entry. Values that fit are in the area
itself; others are read from the offset that the area stores, or an error of this tag is among the
findings of `log`. Unknown types and odd offsets are told there as well. -/
inductive Field.HasData (f : Field) (c : Context) (log : List ImageAudit.Finding)
    (area : List UInt8) : Prop where
  | unknown : FieldType.ofId? f.typeId = none → f.valueOffset = none → f.values = [] →
      .tiff (.unknownFieldType f.tag f.typeId) ∈ log → f.raw.data.toList = area →
      HasData f c log area
  | inline {t : FieldType} : FieldType.ofId? f.typeId = some t →
      t.size * f.count ≤ FieldType.inlineSize c.encoding.big → f.valueOffset = none →
      f.raw.data.toList = area.take (t.size * f.count) →
      f.values = t.values c.encoding.order f.raw → HasData f c log area
  | loaded {t : FieldType} {offset : Nat} : FieldType.ofId? f.typeId = some t →
      FieldType.inlineSize c.encoding.big < t.size * f.count →
      offset = c.encoding.order.decode area → f.valueOffset = some offset →
      (offset % 2 = 1 → .tiff (.oddFieldOffset f.tag offset) ∈ log) →
      c.source.read offset (t.size * f.count) = .ok f.raw →
      f.values = t.values c.encoding.order f.raw → HasData f c log area
  | refused {t : FieldType} {offset : Nat} {reason : ImageAudit.Finding} :
      FieldType.ofId? f.typeId = some t →
      FieldType.inlineSize c.encoding.big < t.size * f.count →
      offset = c.encoding.order.decode area → f.valueOffset = some offset →
      (offset % 2 = 1 → .tiff (.oddFieldOffset f.tag offset) ∈ log) →
      f.raw = .empty → f.values = [] →
      reason ∈ log → reason.severity = .error → reason.args.head? = some (toString f.tag) →
      HasData f c log area

structure Field.StoredIn (f : Field) (c : Context) (log : List ImageAudit.Finding)
    (bytes : List UInt8) (start : Nat) : Prop where
  tag : f.tag = c.encoding.order.intAt bytes start 2
  typeId : f.typeId = c.encoding.order.intAt bytes (start + 2) 2
  count : f.count =
    c.encoding.order.intAt bytes (start + 4) (Segment.offsetWidth c.encoding.big)
  data : f.HasData c log (bytesAt bytes (start + 4 + Segment.offsetWidth c.encoding.big)
    (FieldType.inlineSize c.encoding.big))

/-- The directory is what `bytes` stand for: the number of entries, the entries one behind the
other, and the next offset directly behind the last. -/
structure Directory.StoredIn (d : Directory) (c : Context) (log : List ImageAudit.Finding)
    (bytes : List UInt8) : Prop where
  length : d.fields.length = c.encoding.order.intAt bytes 0 (countSize c.encoding.big)
  fields {i : Nat} {f : Field} : d.fields[i]? = some f →
    f.StoredIn c log bytes (countSize c.encoding.big + i * Entry.size c.encoding.big)
  nextOffset : d.nextOffset = c.encoding.order.intAt bytes
    (countSize c.encoding.big + d.fields.length * Entry.size c.encoding.big)
    (Segment.offsetWidth c.encoding.big)

def Directory.Faithful (d : Directory) (c : Context) (log : List ImageAudit.Finding) : Prop :=
  ∃ head body,
    c.source.read d.offset (countSize c.encoding.big) = .ok head ∧
    c.source.read (d.offset + countSize c.encoding.big)
      (bodySize c.encoding.big d.fields.length) = .ok body ∧
    d.StoredIn c log (head.data.toList ++ body.data.toList)

variable {c : Context} {log : List ImageAudit.Finding} {bytes : List UInt8} {start : Nat}

private theorem Entry.Resolves.field {entry : Entry} {f : Field} {found : List Finding}
    (h : entry.Resolves c.encoding c.source f found) :
    f.tag = entry.tag ∧ f.typeId = entry.typeId ∧ f.count = entry.count := by
  cases h <;> exact ⟨rfl, rfl, rfl⟩

private theorem Entry.Resolves.hasData {entry : Entry} {f : Field} {found : List Finding}
    (h : entry.Resolves c.encoding c.source f found) (hlog : found.map .tiff ⊆ log) :
    f.HasData c log entry.valueArea.data.toList := by
  cases h with
  | unknown ht => exact .unknown ht rfl rfl (hlog (by simp [bare])) rfl
  | inline ht hfits =>
    refine .inline ht (of_decide_eq_true hfits) rfl ?_ rfl
    change (entry.valueArea.extract 0 (entry.valueSize _)).data.toList = _
    rw [ByteArray.data_extract, Array.toList_extract, List.extract_eq_take_drop]
    rfl
  | refused ht hfits hload =>
    have hlt := Nat.lt_of_not_le (of_decide_eq_false hfits)
    cases hload with
    | @refused reason hsev htag =>
      have hmem : .tiff reason ∈ log := hlog (by simp)
      refine .refused ht hlt rfl rfl ?_ rfl rfl hmem hsev htag
      exact fun hodd => hlog (by simp [oddFindings, offset, hodd, bare])
  | loaded ht hfits hload =>
    have hlt := Nat.lt_of_not_le (of_decide_eq_false hfits)
    cases hload with
    | read hread =>
      refine .loaded ht hlt rfl rfl ?_ hread rfl
      exact fun hodd => hlog (by simp [oddFindings, offset, hodd, decode])

private theorem Intake.TakesIn.stored {s t : Intake} {f : Field} {found : List Finding}
    (h : TakesIn c s f found t) (horder : s.cursor.order = c.encoding.order)
    (hrest : s.cursor.rest = bytes.drop start)
    (hle : start + Entry.size c.encoding.big ≤ bytes.length)
    (hlog : t.findings.toList.map .tiff ⊆ log) :
    f.StoredIn c log bytes start ∧ t.cursor.order = c.encoding.order ∧
      t.cursor.rest = bytes.drop (start + Entry.size c.encoding.big) := by
  obtain ⟨hstored, ho, hr⟩ := Entry.read_of_rest (Prod.eta _).symm horder hrest hle
  obtain ⟨htag, htype, hcount⟩ := h.resolves.field
  have hfound : found.map .tiff ⊆ log := by
    refine List.Subset.trans ?_ hlog
    rw [h.findings, List.map_append, List.map_append, List.append_assoc]
    exact List.subset_append_of_subset_right _ (List.subset_append_left _ _)
  have hdata := h.resolves.hasData hfound
  rw [hstored.valueArea] at hdata
  refine ⟨⟨?_, ?_, ?_, hdata⟩, ?_, ?_⟩
  · rw [htag, hstored.tag]
  · rw [htype, hstored.typeId]
  · rw [hcount, hstored.count]
  · rw [h.cursor, ho]
  · rw [h.cursor, hr]

/-- The cursor stands behind as many entries as were read; this carries the alignment from entry
to entry, whatever is loaded or refused in between. -/
private theorem Intake.Runs.stored {s t : Intake} {fs : List Field} (h : Runs c s fs t)
    (horder : s.cursor.order = c.encoding.order) (hrest : s.cursor.rest = bytes.drop start)
    (hle : start + fs.length * Entry.size c.encoding.big ≤ bytes.length)
    (hlog : t.findings.toList.map .tiff ⊆ log) :
    (∀ (i : Nat) (f : Field), fs[i]? = some f →
      f.StoredIn c log bytes (start + i * Entry.size c.encoding.big)) ∧
    t.cursor.order = c.encoding.order ∧
    t.cursor.rest = bytes.drop (start + fs.length * Entry.size c.encoding.big) := by
  induction h generalizing start with
  | done => exact ⟨by simp, horder, by simpa using hrest⟩
  | @next s t u f fs found htake hruns ih =>
    rw [List.length_cons, Nat.succ_mul, Nat.add_comm _ (Entry.size _), ← Nat.add_assoc] at hle ⊢
    have hgrow := List.Subset.trans (List.map_subset ImageAudit.Finding.tiff hruns.findings) hlog
    obtain ⟨hfirst, ho, hr⟩ := htake.stored horder hrest (by omega) hgrow
    obtain ⟨hfields, ho, hr⟩ := ih ho hr hle hlog
    refine ⟨?_, ho, hr⟩
    intro i g hi
    cases i with
    | zero =>
      obtain rfl := Option.some.inj hi
      simpa using hfirst
    | succ i =>
      have hg := hfields i g hi
      rw [Nat.succ_mul, Nat.add_comm (i * _), ← Nat.add_assoc]
      exact hg

namespace Directory

private theorem readPart_ok {source : Source} {offset start count : Nat} {bytes : ByteArray}
    (h : readPart source offset start count = .ok bytes) :
    source.read start count = .ok bytes := by
  rw [readPart] at h
  split at h
  · cases h
  · split at h
    · cases h
    · next hread =>
      obtain rfl := Except.ok.inj h
      exact hread

/-- The number of entries is the integer at the offset of the directory, and its bytes are got by
two reads with nothing in between. -/
theorem readBytes_ok {e : Encoding} {source : Source} {offset count : Nat} {raw : Segment}
    (h : readBytes e source offset = .ok (count, raw)) :
    ∃ head body, source.read offset (countSize e.big) = .ok head ∧
      source.read (offset + countSize e.big) (bodySize e.big count) = .ok body ∧
      minTags ≤ count ∧ count = e.order.intAt head.data.toList 0 (countSize e.big) ∧
      raw.order = e.order ∧
      raw.rest = (head.data.toList ++ body.data.toList).drop (countSize e.big) := by
  rw [readBytes] at h
  split at h
  · cases h
  · next head hhead =>
    have hhead := readPart_ok hhead
    have hsize : head.data.toList.length = countSize e.big := Source.size_read hhead
    cases hget : Segment.uint ⟨offset, head, e.order, 0⟩ (countSize e.big) with | mk value cursor =>
    have hstart : (⟨offset, head, e.order, 0⟩ : Segment).rest = head.data.toList.drop 0 := rfl
    obtain ⟨hvalue, horder, hrest⟩ := Segment.uint_of_rest hget hstart
      (Nat.zero_add _ ▸ Nat.le_of_eq hsize.symm)
    have hvalid := Segment.valid_uint ⟨offset, head, e.order, 0⟩ (countSize e.big)
    rw [hget] at h hvalid
    dsimp only at h
    split at h
    · cases h
    · next hmin =>
      split at h
      · cases h
      · next body hbody =>
        obtain ⟨rfl, rfl⟩ := Prod.mk.inj (Except.ok.inj h)
        refine ⟨head, body, hhead, readPart_ok hbody, Nat.le_of_not_lt hmin, hvalue, horder, ?_⟩
        rw [Segment.rest_append _ hvalid, hrest, Nat.zero_add,
          List.drop_append_of_le_length (Nat.le_of_eq hsize.symm)]

/-- A directory that was read says what the source stores. -/
theorem faithful_of_read {kind : DirectoryKind} {index offset : Nat} {budget : Budget}
    {d : Directory} (h : (read c kind index offset budget).result = .ok (some d))
    (hlog : (read c kind index offset budget).findings ⊆ log) : d.Faithful c log := by
  obtain ⟨count, raw, t, hbytes, hrun, hd, hfindings⟩ := read_ok_some h
  obtain ⟨head, body, hhead, hbody, _, hcount, horder, hrest⟩ := readBytes_ok hbytes
  obtain ⟨fs, hlength, hruns⟩ := Intake.run_ok hrun
  have hfields : d.fields = fs := by
    rw [hd]
    exact hruns.fields
  have hoffset : d.offset = offset := by rw [hd]; rfl
  have hhsize : head.data.toList.length = countSize c.encoding.big := Source.size_read hhead
  have hbsize : body.data.toList.length = bodySize c.encoding.big count := Source.size_read hbody
  have hsize : (head.data.toList ++ body.data.toList).length = countSize c.encoding.big +
      count * Entry.size c.encoding.big + Segment.offsetWidth c.encoding.big := by
    rw [List.length_append, hhsize, hbsize, bodySize, Nat.add_assoc]
  have hfound : t.findings.toList.map .tiff ⊆ log := by
    refine List.Subset.trans ?_ hlog
    rw [hfindings, List.map_append, List.append_assoc]
    exact List.subset_append_of_subset_right _ (List.subset_append_left _ _)
  have hle : countSize c.encoding.big + fs.length * Entry.size c.encoding.big ≤
      (head.data.toList ++ body.data.toList).length := by
    rw [hsize, hlength]
    exact Nat.le_add_right _ _
  obtain ⟨hstored, ho, hr⟩ := hruns.stored horder hrest hle hfound
  refine ⟨head, body, hoffset ▸ hhead, ?_, ?_, ?_, ?_⟩
  · rw [hoffset, hfields, hlength]
    exact hbody
  · rw [hfields, hlength, hcount, ByteOrder.intAt, ByteOrder.intAt, bytesAt, bytesAt,
      List.drop_zero, List.drop_zero, List.take_append_of_le_length (Nat.le_of_eq hhsize.symm)]
  · intro i f hi
    exact hstored i f (hfields ▸ hi)
  · have hget : (t.cursor.uint (Segment.offsetWidth c.encoding.big)).1 = d.nextOffset := by
      subst hd
      rfl
    obtain ⟨hnext, _⟩ := Segment.uint_of_rest (Prod.ext hget rfl) hr
      (Nat.le_of_eq (by rw [hsize, hlength]))
    refine Eq.trans hnext ?_
    rw [ho, hfields]

/-- Where no directory can be read the offset is outside the file or there are no entries. -/
theorem defect_of_readBytes {e : Encoding} {source : Source} {offset : Nat} {finding : Finding}
    (h : readBytes e source offset = .error (.defect finding)) :
    finding = .invalidFileOffset offset source.length ∨
      ∃ count, finding = .tooFewTags offset count minTags := by
  have hpart {start count : Nat} (hp : readPart source offset start count =
      .error (.defect finding)) : finding = .invalidFileOffset offset source.length := by
    rw [readPart] at hp
    split at hp
    · obtain rfl := Obstacle.defect.inj (Except.error.inj hp)
      rfl
    · split at hp
      · cases hp
      · cases hp
  rw [readBytes] at h
  split at h
  · next hp =>
    obtain rfl := Except.error.inj h
    exact .inl (hpart hp)
  · dsimp only at h
    split at h
    · obtain rfl := Obstacle.defect.inj (Except.error.inj h)
      exact .inr ⟨_, rfl⟩
    · split at h
      · next hp =>
        obtain rfl := Except.error.inj h
        exact .inl (hpart hp)
      · cases h

end Directory

namespace Survey

/-- A finding tells why no directory was entered at an offset: it was entered before, or is outside
the file, or there are no entries. -/
def Refused (c : Context) (log : List ImageAudit.Finding) (offset : Nat) : Prop :=
  .tiff (.directoryRepeated offset) ∈ log ∨
  .tiff (.invalidFileOffset offset c.source.length) ∈ log ∨
  ∃ count, .tiff (.tooFewTags offset count Directory.minTags) ∈ log

def TooDeep (log : List ImageAudit.Finding) (offset : Nat) : Prop :=
  .tiff (.nestingTooDeep offset maxDepth) ∈ log

theorem accounts (c : Context) (log : List ImageAudit.Finding) :
    Accounts c log (Refused c log) (TooDeep log) where
  lost := by
    intro s t kind index offset he hlog
    obtain ⟨_, rfl⟩ | ⟨hread, rfl⟩ := enter_ok_none he
    · exact .inl (hlog (by simp [report]))
    · obtain ⟨finding, hbytes, hfindings⟩ := Directory.read_ok_none hread
      have hmem : .tiff finding ∈ log := hlog (by simp [takeReading, hfindings])
      obtain rfl | ⟨count, rfl⟩ := Directory.defect_of_readBytes hbytes
      · exact .inr (.inl hmem)
      · exact .inr (.inr ⟨count, hmem⟩)
  cut h := h

end Survey

namespace Description

/-- After a walk into an empty description, each of its directories, at whatever level, says what
the source stores at the offset of the directory. The main directories are those that the chain
from the first offset leads to, as far as it could be followed, and below each directory stand the
ones at the offsets that it lists; wherever one is missing a finding says why. A walk that returns
without an error has followed the chain up to zero or to such a finding. -/
theorem walk_faithful (c : Context) (budget : Budget) (first : Nat) :
    let result := ((empty budget).walk c first).1
    let after := ((empty budget).walk c first).2
    (∀ p ∈ after.survey.placements, p.directory.Faithful c after.findings) ∧
    (∃ stop, Chained first after.mainDirectories stop ∧
      (result = .ok () → stop = 0 ∨ Survey.Refused c after.findings stop)) ∧
    ∀ tree ∈ after.survey.directories.toList,
      Linked (Survey.Refused c after.findings) (Survey.TooDeep after.findings) tree := by
  intro result after
  obtain ⟨hfollows, hlog, hread⟩ := walk_readings c (d := empty budget) rfl first
  obtain ⟨⟨stop, hchain, hstop⟩, hlinked⟩ :=
    (Survey.accounts c after.findings).follows hfollows (hlog ▸ List.Subset.refl _)
  refine ⟨?_, ⟨stop, hchain, ?_⟩, hlinked⟩
  · intro p hp
    obtain ⟨index, left, hresult, hfound⟩ := hread p hp
    exact Directory.faithful_of_read hresult hfound
  · intro hok
    obtain ⟨t, hw⟩ := walk_ok hok
    exact hstop t hw

end Description
end ImageAudit.Tiff
