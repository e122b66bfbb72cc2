/-
  Data sections, as they are stored.

  A clause is stored as six numbers, in fields whose widths depend on the layout
  of the section. A reader at a position sees the bytes from there on: a number
  that was written there is read, and the rest is seen from behind it
  (`numberAt_of_drop`, `drop_add_of_drop`). Number by number this gives back a
  clause, a table of clauses and a section, whatever follows it
  (`sectionAt_of_drop`).
-/
import CilCoverage.MethodBody
import CilCoverage.Proofs.Encoding
import CilCoverage.Proofs.Clauses

namespace CilCoverage

namespace MethodBody

open Code

/-! ## Numbers -/

section Numbers

variable {data rest : Bytes} {pos : Nat}

theorem drop_add_of_drop {xs : Bytes} (h : data.drop pos = xs ++ rest) (width : Nat)
    (hw : xs.length = width) : data.drop (pos + width) = rest := by
  rw [← List.drop_drop, h, List.drop_left' hw]

theorem numberAt_of_drop {width n : Nat} (h : data.drop pos = Bytes.ofNat width n ++ rest) :
    numberAt width pos data = .ok (n % Nat.pow 256 width) := by
  rw [numberAt, h, fetch_ofNat]
  rfl

theorem numberAt_fit {width n : Nat} (hn : n < Nat.pow 256 width)
    (h : data.drop pos = Bytes.ofNat width n ++ rest) : numberAt width pos data = .ok n := by
  rw [numberAt_of_drop h, Nat.mod_eq_of_lt hn]

theorem numberAt_word {word : UInt32} (h : data.drop pos = Bytes.ofNat 4 word.toNat ++ rest) :
    numberAt 4 pos data = .ok word.toNat :=
  numberAt_fit word.toNat_lt_size h

theorem slice_of_drop {xs : Bytes} (h : data.drop pos = xs ++ rest) (hpos : pos ≤ data.length) :
    slice pos xs.length data = .ok xs := by
  have hlen := congrArg List.length h
  rw [List.length_drop, List.length_append] at hlen
  rw [slice, if_pos (by omega), h, List.take_left]

end Numbers

/-! ## Clauses -/

/-- The numbers that a clause is stored as. -/
structure ClauseFields where
  flags : Nat
  tryStart : Nat
  tryLength : Nat
  handlerStart : Nat
  handlerLength : Nat
  /-- Type of a catch handler or start of a filter. -/
  extra : Nat

namespace ClauseFields

def toList (f : ClauseFields) : List Nat :=
  [f.flags, f.tryStart, f.tryLength, f.handlerStart, f.handlerLength, f.extra]

/-- The kind of handler that the flags and the last number name. -/
def Names (f : ClauseFields) : ClauseKind UInt32 → Prop
  | .catchType type => f.flags = 0 ∧ f.extra = type.raw.toNat
  | .filter start => f.flags = 1 ∧ f.extra = start.toNat
  | .finallyBlock => f.flags = 2
  | .fault => f.flags = 4

/-- The clause that the numbers stand for: the flags are known, and no range reaches past the
last position of 32 bits. -/
structure Denotes (f : ClauseFields) (c : Clause UInt32) : Prop where
  kind : f.Names c.kind
  tryStart : f.tryStart = c.tryStart.toNat
  tryEnd : f.tryStart + f.tryLength = c.tryEnd.toNat
  handlerStart : f.handlerStart = c.handlerStart.toNat
  handlerEnd : f.handlerStart + f.handlerLength = c.handlerEnd.toNat

end ClauseFields

/-- Bytes of each number of a clause. -/
def SectionFormat.fieldWidths : SectionFormat → List Nat
  | small => [2, 2, 1, 2, 1, 4]
  | fat => [4, 4, 4, 4, 4, 4]

/-- A clause as a section of the given layout holds it. -/
structure Entry (format : SectionFormat) where
  fields : ClauseFields
  fits : List.Forall₂ (fun width n => n < Nat.pow 256 width) format.fieldWidths fields.toList
  clause : Clause UInt32
  denotes : fields.Denotes clause

variable {format : SectionFormat}

def Entry.bytes (e : Entry format) : Bytes :=
  (List.zipWith Bytes.ofNat format.fieldWidths e.fields.toList).flatten

theorem Entry.length_bytes (e : Entry format) : e.bytes.length = format.clauseSize := by
  cases format <;>
    simp [Entry.bytes, SectionFormat.fieldWidths, ClauseFields.toList, SectionFormat.clauseSize]

theorem rangeEnd_eq_ok {start length : Nat} {stop : UInt32} (h : start + length = stop.toNat)
    (overflow : SectionError) : rangeEnd start length overflow = .ok stop := by
  rw [rangeEnd, h, if_pos stop.toNat_lt_size, UInt32.ofNat_toNat]

theorem clauseOf_eq_ok {f : ClauseFields} {c : Clause UInt32} (h : f.Denotes c) :
    clauseOf f.flags f.tryStart f.tryLength f.handlerStart f.handlerLength f.extra = .ok c := by
  obtain ⟨kind, tryStart, tryEnd, handlerStart, handlerEnd⟩ := c
  obtain ⟨hkind, hts, hte, hhs, hhe⟩ := h
  unfold clauseOf
  dsimp only at hkind hts hte hhs hhe ⊢
  rw [rangeEnd_eq_ok hte, rangeEnd_eq_ok hhe, hts, hhs]
  cases kind <;> simp only [ClauseFields.Names] at hkind <;> simp [hkind, bind, Except.bind]

section Reading

variable {data rest : Bytes} {pos : Nat}

theorem clauseAt_of_drop {e : Entry format} (h : data.drop pos = e.bytes ++ rest) :
    clauseAt format data pos = .ok e.clause := by
  obtain ⟨f, hfits, c, hc⟩ := e
  rw [← clauseOf_eq_ok hc]
  cases format <;>
  · simp only [SectionFormat.fieldWidths, ClauseFields.toList, List.forall₂_cons] at hfits
    obtain ⟨hflags, hts, htl, hhs, hhl, hextra, -⟩ := hfits
    simp only [Entry.bytes, SectionFormat.fieldWidths, ClauseFields.toList,
      List.zipWith_cons_cons, List.zipWith_nil_left, List.flatten_cons, List.flatten_nil,
      List.append_assoc] at h
    have h1 := drop_add_of_drop h _ (Bytes.length_ofNat _ _)
    have h2 := drop_add_of_drop h1 _ (Bytes.length_ofNat _ _)
    have h3 := drop_add_of_drop h2 _ (Bytes.length_ofNat _ _)
    have h4 := drop_add_of_drop h3 _ (Bytes.length_ofNat _ _)
    have h5 := drop_add_of_drop h4 _ (Bytes.length_ofNat _ _)
    simp only [clauseAt]
    rw [numberAt_fit hflags h, numberAt_fit hts h1, numberAt_fit htl h2, numberAt_fit hhs h3,
      numberAt_fit hhl h4, numberAt_fit hextra h5]
    rfl

theorem clausesAt_of_drop {entries : List (Entry format)}
    (h : data.drop pos = entries.flatMap Entry.bytes ++ rest) :
    clausesAt format data entries.length pos = .ok (entries.map Entry.clause) := by
  induction entries generalizing pos with
  | nil => rfl
  | cons e entries ih =>
    rw [List.flatMap_cons, List.append_assoc] at h
    rw [List.length_cons, clausesAt, clauseAt_of_drop h,
      ih (drop_add_of_drop h _ e.length_bytes)]
    rfl

end Reading

/-! ## Sections -/

/-- A section with exception clauses. -/
structure ExceptionSection where
  format : SectionFormat
  entries : List (Entry format)
  /-- Bits of the kind that say nothing. -/
  spare : Fin 16
  /-- The bytes between the size field and the clauses. -/
  reserved : Bytes
  length_reserved : format.sizeWidth + reserved.length = 3
  /-- The size fits its field. -/
  room : 4 + format.clauseSize * entries.length < Nat.pow 256 format.sizeWidth

namespace ExceptionSection

/-- The clauses in a section without a bit or a byte that says nothing. -/
def ofEntries (format : SectionFormat) (entries : List (Entry format))
    (room : 4 + format.clauseSize * entries.length < Nat.pow 256 format.sizeWidth) :
    ExceptionSection where
  format := format
  entries := entries
  spare := 0
  reserved := List.replicate (3 - format.sizeWidth) 0
  length_reserved := by cases format <;> rfl
  room := room

variable (s : ExceptionSection)

def clauses : List (Clause UInt32) := s.entries.map Entry.clause

/-- Bytes of the section, the header included. -/
def size : Nat := 4 + s.format.clauseSize * s.entries.length

/-- An exception section has bit 0, the wide layout bit 6, and one before another bit 7. -/
def kind (more : Bool) : Nat :=
  1 + 4 * s.spare.val + (if s.format = .fat then 0x40 else 0) + (if more then 0x80 else 0)

def bytes (more : Bool) : Bytes :=
  Bytes.ofNat 1 (s.kind more) ++ (Bytes.ofNat s.format.sizeWidth s.size ++
    (s.reserved ++ s.entries.flatMap Entry.bytes))

theorem kind_spec (more : Bool) : s.kind more < 0x100 ∧ s.kind more % 4 = 1 ∧
    (if s.kind more / 0x40 % 2 = 1 then SectionFormat.fat else .small) = s.format ∧
    (s.kind more / 0x80 % 2 == 1) = more := by
  unfold kind
  generalize s.format = format, s.spare = spare
  revert spare
  cases format <;> cases more <;> decide

theorem count_eq : (s.size - 4) / s.format.clauseSize = s.entries.length := by
  have hpos : 0 < s.format.clauseSize := by cases s.format <;> decide
  rw [size, Nat.add_sub_cancel_left, Nat.mul_div_cancel_left _ hpos]

theorem drop_entries {data rest : Bytes} {pos : Nat} {more : Bool}
    (h : data.drop pos = s.bytes more ++ rest) :
    data.drop (pos + 4) = s.entries.flatMap Entry.bytes ++ rest := by
  simp only [bytes, List.append_assoc] at h
  have h1 := drop_add_of_drop h 1 (Bytes.length_ofNat _ _)
  have h2 := drop_add_of_drop h1 _ (Bytes.length_ofNat _ _)
  have h3 := drop_add_of_drop h2 _ rfl
  have hlen := s.length_reserved
  rwa [show pos + 4 = pos + 1 + s.format.sizeWidth + s.reserved.length by omega]

end ExceptionSection

theorem sectionAt_of_drop {data rest : Bytes} {pos : Nat} {s : ExceptionSection} {more : Bool}
    (h : data.drop pos = s.bytes more ++ rest) :
    sectionAt data pos = .ok (s.clauses, more) := by
  have hentries := clausesAt_of_drop (s.drop_entries h)
  simp only [ExceptionSection.bytes, List.append_assoc] at h
  obtain ⟨hlt, hexception, hformat, hmore⟩ := s.kind_spec more
  have hkind : numberAt 1 pos data = .ok (s.kind more) := numberAt_fit hlt h
  have hsize : numberAt s.format.sizeWidth (pos + 1) data = .ok s.size :=
    numberAt_fit s.room (drop_add_of_drop h 1 (Bytes.length_ofNat _ _))
  rw [sectionAt, hkind]
  simp only [bind, Except.bind, hformat]
  rw [if_neg (by omega), hsize]
  simp only [s.count_eq, hentries, hmore]
  rfl

/-- The sections one by one. -/
theorem sectionsFrom_eq (data : Bytes) (pos : Nat) :
    sectionsFrom data pos = sectionAt data pos >>= fun r =>
      if r.2 then (sectionsFrom data (pos + 4)).map (r.1 ++ ·) else .ok r.1 := by
  rw [sectionsFrom]
  split <;> simp_all [bind, Except.bind]

end MethodBody

end CilCoverage
