/-
  Reading back a stored body.

  A header of the fat form is read field by field, whatever its flags are
  (`ofBytes_header`). A body that was written is read back in either form
  (`ofBytes_toBytes`): in the fat one its clauses lie in a single section.
-/
import CilCoverage.Proofs.DataSections

namespace CilCoverage

namespace MethodBody

open Code

/-! ## The section that is written -/

/-- The numbers that a clause is written as. -/
def Entry.ofClause (c : Clause UInt32) (h : c.Ordered) : Entry .fat where
  fields := {
    flags := (clauseTag c.kind).1
    tryStart := c.tryStart.toNat
    tryLength := (c.tryEnd - c.tryStart).toNat
    handlerStart := c.handlerStart.toNat
    handlerLength := (c.handlerEnd - c.handlerStart).toNat
    extra := (clauseTag c.kind).2.toNat }
  fits := by
    have hword : ∀ w : UInt32, w.toNat < Nat.pow 256 4 := UInt32.toNat_lt_size
    have hflags : (clauseTag c.kind).1 < Nat.pow 256 4 := by
      cases c.kind <;> simp [clauseTag]
    simp only [SectionFormat.fieldWidths, ClauseFields.toList, List.forall₂_cons]
    exact ⟨hflags, hword _, hword _, hword _, hword _, hword _, .nil⟩
  clause := c
  denotes := by
    have hsum : ∀ {start stop : UInt32}, start ≤ stop →
        start.toNat + (stop - start).toNat = stop.toNat := by
      intro start stop hle
      have : start.toNat ≤ stop.toNat := hle
      rw [UInt32.toNat_sub_of_le _ _ hle]
      omega
    refine ⟨?_, rfl, hsum h.1, rfl, hsum h.2⟩
    cases c.kind <;> simp [ClauseFields.Names, clauseTag]

theorem Entry.bytes_ofClause {c : Clause UInt32} (h : c.Ordered) :
    (Entry.ofClause c h).bytes = clauseBytes c := by
  have hflags : (UInt32.ofNat (clauseTag c.kind).1).toNat = (clauseTag c.kind).1 := by
    cases c.kind <;> rfl
  simp [Entry.bytes, Entry.ofClause, SectionFormat.fieldWidths, ClauseFields.toList, clauseBytes,
    hflags]

section Written

variable {cs : List (Clause UInt32)} (hcs : ∀ c ∈ cs, c.Ordered)
  (hroom : 4 + 24 * cs.length ≤ 0xffffff)

/-- The one section that the clauses of a body are written to. -/
def ExceptionSection.ofClauses : ExceptionSection :=
  .ofEntries .fat (cs.pmap Entry.ofClause hcs) (by
    rw [List.length_pmap]
    exact Nat.lt_succ_of_le hroom)

theorem ExceptionSection.clauses_ofClauses :
    (ExceptionSection.ofClauses hcs hroom).clauses = cs := by
  simp [ExceptionSection.clauses, ExceptionSection.ofClauses, ExceptionSection.ofEntries,
    List.map_pmap, Entry.ofClause]

theorem ExceptionSection.bytes_ofClauses :
    (ExceptionSection.ofClauses hcs hroom).bytes false = sectionBytes cs := by
  have hentries : (cs.pmap Entry.ofClause hcs).flatMap Entry.bytes = cs.flatMap clauseBytes := by
    rw [List.flatMap, List.map_pmap, List.flatMap]
    simp only [Entry.bytes_ofClause, List.pmap_eq_map]
  simp only [ExceptionSection.bytes, ExceptionSection.ofClauses, ExceptionSection.ofEntries,
    ExceptionSection.kind, ExceptionSection.size, List.length_pmap, hentries, sectionBytes]
  rfl

include hcs hroom in
theorem sectionsFrom_sectionBytes {data rest : Bytes} {pos : Nat}
    (h : data.drop pos = sectionBytes cs ++ rest) : sectionsFrom data pos = .ok cs := by
  rw [← ExceptionSection.bytes_ofClauses hcs hroom] at h
  rw [sectionsFrom_eq, sectionAt_of_drop h, ExceptionSection.clauses_ofClauses]
  rfl

end Written

/-! ## The header -/

/-- A header of the fat form. -/
structure Header where
  flags : Nat
  /-- The lowest bits tell the form. -/
  format : flags % 4 = 3
  flags_lt : flags < 0x1000
  maxStack : UInt16
  localSig : Token

namespace Header

variable (h : Header)

/-- The bytes of the header before code of some size; the topmost bits of the first number are
the size of the header in double words. -/
def bytes (codeSize : Nat) : Bytes :=
  Bytes.ofNat 2 (0x3000 + h.flags) ++ (Bytes.ofNat 2 h.maxStack.toNat ++
    (Bytes.ofNat 4 codeSize ++ Bytes.ofNat 4 h.localSig.raw.toNat))

/-- Data sections follow the code. -/
def moreSections : Bool := h.flags / 0x08 % 2 == 1

def initLocals : Bool := h.flags / 0x10 % 2 == 1

theorem length_bytes (codeSize : Nat) : (h.bytes codeSize).length = 12 := by
  simp [bytes]

/-- What is read of a header, number by number. -/
theorem numberAt_bytes (codeSize : Nat) (rest : Bytes) :
    numberAt 1 0 (h.bytes codeSize ++ rest) = .ok ((0x3000 + h.flags) % 0x100) ∧
      numberAt 2 0 (h.bytes codeSize ++ rest) = .ok (0x3000 + h.flags) ∧
      numberAt 2 2 (h.bytes codeSize ++ rest) = .ok h.maxStack.toNat ∧
      numberAt 4 4 (h.bytes codeSize ++ rest) = .ok (codeSize % 2 ^ 32) ∧
      numberAt 4 8 (h.bytes codeSize ++ rest) = .ok h.localSig.raw.toNat := by
  have h0 : (h.bytes codeSize ++ rest).drop 0 = Bytes.ofNat 2 (0x3000 + h.flags) ++
      (Bytes.ofNat 2 h.maxStack.toNat ++ (Bytes.ofNat 4 codeSize ++
        (Bytes.ofNat 4 h.localSig.raw.toNat ++ rest))) := by
    simp [bytes]
  have h2 := drop_add_of_drop h0 2 (Bytes.length_ofNat _ _)
  have h4 := drop_add_of_drop h2 2 (Bytes.length_ofNat _ _)
  have h8 := drop_add_of_drop h4 4 (Bytes.length_ofNat _ _)
  -- the form is told by the first byte alone
  have h0' : (h.bytes codeSize ++ rest).drop 0 = Bytes.ofNat 1 (0x3000 + h.flags) ++
      (Bytes.ofNat 1 ((0x3000 + h.flags) / 256) ++ (Bytes.ofNat 2 h.maxStack.toNat ++
        (Bytes.ofNat 4 codeSize ++ (Bytes.ofNat 4 h.localSig.raw.toNat ++ rest)))) := h0
  have hword : 0x3000 + h.flags < Nat.pow 256 2 := by
    have := h.flags_lt
    have hpow : Nat.pow 256 2 = 0x10000 := rfl
    omega
  exact ⟨numberAt_of_drop h0', numberAt_fit hword h0, numberAt_fit h.maxStack.toNat_lt_size h2,
    numberAt_of_drop h4, numberAt_word h8⟩

end Header

/-- A body in the fat form is read as its header, its code and its sections say. -/
theorem ofBytes_header (h : Header) {code rest : Bytes} (hcode : code.length < 2 ^ 32) :
    ofBytes (h.bytes code.length ++ (code ++ rest)) =
      (if h.moreSections then
          sectionsFrom (h.bytes code.length ++ (code ++ rest)) (align4 (12 + code.length))
        else .ok []).map
        fun clauses => ⟨h.maxStack, h.initLocals, h.localSig, code, clauses⟩ := by
  obtain ⟨hfirst, hword, hstack, hlength, hsig⟩ := h.numberAt_bytes code.length (code ++ rest)
  rw [Nat.mod_eq_of_lt hcode] at hlength
  have hslice : slice 12 code.length (h.bytes code.length ++ (code ++ rest)) = .ok code := by
    apply slice_of_drop (List.drop_left' (h.length_bytes _))
    rw [List.length_append, h.length_bytes]
    omega
  have hlt := h.flags_lt
  have hformat : (0x3000 + h.flags) % 0x100 % 4 = 3 := by
    have := h.format
    omega
  have hsize : (0x3000 + h.flags) / 0x1000 * 4 = 12 := by omega
  have hflags : (0x3000 + h.flags) % 0x1000 = h.flags := by omega
  rw [ofBytes, hfirst]
  simp only [bind, Except.bind, hformat]
  rw [ofFatBytes, hword]
  simp only [bind, Except.bind, hsize, hstack, hlength, hsig, hslice, hflags]
  rw [if_neg (by decide), UInt16.ofNat_toNat, UInt32.ofNat_toNat]
  simp only [Header.moreSections, Header.initLocals, beq_iff_eq]
  split
  · cases sectionsFrom _ _ <;> rfl
  · rfl

/-- The code and the clauses have no say in what is read of the header. -/
theorem fields_of_header {h : Header} {codeSize : Nat} {rest : Bytes} {b : MethodBody}
    (hread : ofBytes (h.bytes codeSize ++ rest) = .ok b) :
    b.maxStack = h.maxStack ∧ b.initLocals = h.initLocals ∧ b.localSig = h.localSig := by
  obtain ⟨hfirst, hword, hstack, -, hsig⟩ := h.numberAt_bytes codeSize rest
  have hlt := h.flags_lt
  have hformat : (0x3000 + h.flags) % 0x100 % 4 = 3 := by
    have := h.format
    omega
  have hsize : (0x3000 + h.flags) / 0x1000 * 4 = 12 := by omega
  have hflags : (0x3000 + h.flags) % 0x1000 = h.flags := by omega
  have hfields : ∀ b' : MethodBody, b'.maxStack = UInt16.ofNat h.maxStack.toNat →
      b'.initLocals = ((0x3000 + h.flags) % 0x1000 / 0x10 % 2 == 1) →
      b'.localSig = ⟨UInt32.ofNat h.localSig.raw.toNat⟩ →
      b'.maxStack = h.maxStack ∧ b'.initLocals = h.initLocals ∧ b'.localSig = h.localSig := by
    intro b' hstack hinit hsig
    rw [hstack, hinit, hsig, hflags, UInt16.ofNat_toNat, UInt32.ofNat_toNat]
    exact ⟨rfl, rfl, rfl⟩
  rw [ofBytes, hfirst] at hread
  simp only [bind, Except.bind, hformat] at hread
  obtain ⟨word, hword', hread⟩ := Result.bind_eq_ok.mp hread
  obtain rfl := Except.ok.inj (hword.symm.trans hword')
  rw [hsize, if_neg (by decide)] at hread
  obtain ⟨stack, hstack', hread⟩ := Result.bind_eq_ok.mp hread
  obtain rfl := Except.ok.inj (hstack.symm.trans hstack')
  obtain ⟨codeSize, -, hread⟩ := Result.bind_eq_ok.mp hread
  obtain ⟨localSig, hsig', hread⟩ := Result.bind_eq_ok.mp hread
  obtain rfl := Except.ok.inj (hsig.symm.trans hsig')
  obtain ⟨code, -, hread⟩ := Result.bind_eq_ok.mp hread
  split at hread
  all_goals
    obtain ⟨clauses, -, hread⟩ := Result.bind_eq_ok.mp hread
    cases hread
    exact hfields _ rfl rfl rfl

/-! ## Bodies -/

/-- What is read back of a body; the tiny form says nothing about the stack and the locals. -/
def asStored (b : MethodBody) : MethodBody :=
  if b.isTiny then { b with maxStack := 8, localSig := ⟨0⟩ } else b

theorem code_asStored (b : MethodBody) : b.asStored.code = b.code := by
  rw [asStored]
  split <;> rfl

theorem clauses_asStored (b : MethodBody) : b.asStored.clauses = b.clauses := by
  rw [asStored]
  split <;> rfl

theorem ofBytes_tiny {b : MethodBody} (h : b.isTiny = true) (rest : Bytes) :
    ofBytes (UInt8.ofNat (4 * b.code.length + 2) :: b.code ++ rest) = .ok b.asStored := by
  rw [asStored, if_pos h]
  simp only [isTiny, Bool.and_eq_true, decide_eq_true_eq, List.isEmpty_iff,
    Bool.not_eq_true'] at h
  obtain ⟨⟨⟨⟨hlen, -⟩, -⟩, hclauses⟩, hinit⟩ := h
  generalize hdata : UInt8.ofNat (4 * b.code.length + 2) :: b.code ++ rest = data
  have h0 : data.drop 0 = Bytes.ofNat 1 (4 * b.code.length + 2) ++ (b.code ++ rest) := by
    rw [← hdata]
    rfl
  have h1 : data.drop 1 = b.code ++ rest := drop_add_of_drop h0 1 (Bytes.length_ofNat _ _)
  have hfirst : numberAt 1 0 data = .ok (4 * b.code.length + 2) := by
    have hpow : Nat.pow 256 1 = 256 := rfl
    rw [numberAt_of_drop h0, hpow, Nat.mod_eq_of_lt (by omega)]
  have hformat : (4 * b.code.length + 2) % 4 = 2 := by omega
  have hcount : (4 * b.code.length + 2) / 4 = b.code.length := by omega
  have hslice : slice 1 b.code.length data = .ok b.code :=
    slice_of_drop h1 (by rw [← hdata]; simp)
  rw [ofBytes, hfirst]
  simp only [bind, Except.bind, hformat, hcount, hslice]
  rw [hclauses, hinit]

/-- The flags that are written. -/
def headerFlags (b : MethodBody) : Nat :=
  3 + (if b.clauses.isEmpty then 0 else 0x08) + (if b.initLocals then 0x10 else 0)

theorem headerFlags_spec (b : MethodBody) : b.headerFlags % 4 = 3 ∧ b.headerFlags < 0x1000 ∧
    (b.headerFlags / 0x08 % 2 == 1) = !b.clauses.isEmpty ∧
    (b.headerFlags / 0x10 % 2 == 1) = b.initLocals := by
  unfold headerFlags
  cases b.clauses.isEmpty <;> cases b.initLocals <;> decide

/-- The header that is written. -/
def header (b : MethodBody) : Header where
  flags := b.headerFlags
  format := b.headerFlags_spec.1
  flags_lt := b.headerFlags_spec.2.1
  maxStack := b.maxStack
  localSig := b.localSig

theorem fatHeader_eq (b : MethodBody) : b.fatHeader = b.header.bytes b.code.length := by
  have hflags : 0x3003 + (if b.clauses.isEmpty then 0 else 0x08) +
      (if b.initLocals then 0x10 else 0) = 0x3000 + b.headerFlags := by
    rw [headerFlags]
    omega
  simp only [fatHeader, hflags, List.append_assoc]
  rfl

theorem length_fatHeader (b : MethodBody) : b.fatHeader.length = 12 := by
  rw [fatHeader_eq, Header.length_bytes]

theorem ofBytes_fat {b : MethodBody} {rest : Bytes} (hcode : b.code.length < 2 ^ 32)
    (hsections : b.clauses ≠ [] →
      sectionsFrom (b.fatHeader ++ b.code ++ rest) (align4 (12 + b.code.length)) =
        .ok b.clauses) :
    ofBytes (b.fatHeader ++ b.code ++ rest) = .ok b := by
  have hmore : b.header.moreSections = !b.clauses.isEmpty := b.headerFlags_spec.2.2.1
  have hinit : b.header.initLocals = b.initLocals := b.headerFlags_spec.2.2.2
  have hbody : (⟨b.header.maxStack, b.header.initLocals, b.header.localSig, b.code, b.clauses⟩ :
      MethodBody) = b := by
    rw [hinit]
    rfl
  rw [List.append_assoc, fatHeader_eq] at hsections ⊢
  rw [ofBytes_header b.header hcode, hmore]
  by_cases hempty : b.clauses = []
  · rw [hempty] at hbody ⊢
    exact congrArg Except.ok hbody
  · have hnot : b.clauses.isEmpty = false := by simpa using hempty
    rw [hnot, hsections hempty]
    exact congrArg Except.ok hbody

/-- A body that was written is read back, whatever follows it. -/
theorem ofBytes_toBytes {b : MethodBody} {bytes : Bytes} (h : b.toBytes = .ok bytes)
    (hcode : b.code.length < 2 ^ 32) (hcs : ∀ c ∈ b.clauses, c.Ordered) (rest : Bytes) :
    ofBytes (bytes ++ rest) = .ok b.asStored := by
  unfold toBytes at h
  split at h
  · next htiny =>
    cases h
    exact ofBytes_tiny htiny rest
  · next hfat =>
    rw [asStored, if_neg hfat]
    dsimp only at h
    split at h
    · next hempty =>
      cases h
      exact ofBytes_fat hcode fun hne => absurd (List.isEmpty_iff.mp hempty) hne
    · split at h
      · cases h
      · next hroom =>
        cases h
        rw [List.append_assoc, List.append_assoc]
        apply ofBytes_fat hcode
        intro _
        have hroom : 4 + 24 * b.clauses.length ≤ 0xffffff := by omega
        have hstart : (b.fatHeader ++ b.code).length = 12 + b.code.length := by
          rw [List.length_append, length_fatHeader]
        have hdrop : (b.fatHeader ++ b.code ++
            (List.replicate (align4 (b.fatHeader ++ b.code).length -
              (b.fatHeader ++ b.code).length) 0 ++ (sectionBytes b.clauses ++ rest))).drop
            (align4 (12 + b.code.length)) = sectionBytes b.clauses ++ rest := by
          rw [hstart, ← List.append_assoc]
          apply List.drop_left'
          rw [List.length_append, hstart, List.length_replicate, align4]
          omega
        exact sectionsFrom_sectionBytes hcs hroom hdrop

/-- The code is part of what is written. -/
theorem length_code_le {b : MethodBody} {bytes : Bytes} (h : b.toBytes = .ok bytes) :
    b.code.length ≤ bytes.length := by
  unfold toBytes at h
  split at h
  · cases h
    exact Nat.le_succ _
  · dsimp only at h
    split at h
    · cases h
      simp
    · split at h
      · cases h
      · cases h
        simp only [List.length_append]
        omega

/-- Only too many clauses keep a body from being written. -/
theorem exists_toBytes_iff {b : MethodBody} :
    (∃ bytes, b.toBytes = .ok bytes) ↔ b.clauses.length ≤ 699050 := by
  have htiny : b.isTiny = true → b.clauses = [] := by
    intro h
    simp only [isTiny, Bool.and_eq_true, List.isEmpty_iff] at h
    exact h.1.2
  unfold toBytes
  split
  · next h => simp [htiny h]
  · dsimp only
    split
    · next h => simp [List.isEmpty_iff.mp h]
    · split
      · next hmany => simp; omega
      · next hroom => simp; omega

theorem maxStack_le_asStored (b : MethodBody) : b.maxStack ≤ b.asStored.maxStack := by
  rw [asStored]
  split
  · next htiny =>
    simp only [isTiny, Bool.and_eq_true, decide_eq_true_eq] at htiny
    exact htiny.1.1.1.2
  · exact UInt16.le_refl _

/-- The stored form of a body that is not tiny begins with its header. -/
theorem exists_header {b : MethodBody} (hfat : ¬ b.isTiny = true) {bytes : Bytes}
    (h : b.toBytes = .ok bytes) : ∃ rest, bytes = b.header.bytes b.code.length ++ rest := by
  unfold toBytes at h
  rw [if_neg hfat, fatHeader_eq] at h
  dsimp only at h
  split at h
  · cases h
    exact ⟨_, rfl⟩
  · split at h
    · cases h
    · cases h
      exact ⟨_, by rw [List.append_assoc, List.append_assoc]⟩

/-- The tiny form is for bodies whose signature of the locals is in no row. -/
theorem row_asStored (b : MethodBody) : b.asStored.localSig.row = b.localSig.row := by
  rw [asStored]
  split
  · next htiny =>
    simp only [isTiny, Bool.and_eq_true, Token.isNil, beq_iff_eq] at htiny
    exact htiny.1.1.2.symm
  · rfl

theorem initLocals_asStored (b : MethodBody) : b.asStored.initLocals = b.initLocals := by
  rw [asStored]
  split <;> rfl

/-- Whatever a stored body is read as, its header says what was written, or it has the tiny
form. -/
theorem header_of_ofBytes {b stored : MethodBody} {bytes : Bytes}
    (h : b.toBytes = .ok bytes) (hread : ofBytes bytes = .ok stored) :
    b.maxStack ≤ stored.maxStack ∧ stored.initLocals = b.initLocals ∧
      stored.localSig.row = b.localSig.row := by
  by_cases htiny : b.isTiny = true
  · have hbytes : UInt8.ofNat (4 * b.code.length + 2) :: b.code = bytes := by
      rw [toBytes, if_pos htiny] at h
      exact Except.ok.inj h
    have htinyRead := ofBytes_tiny htiny []
    rw [List.append_nil, hbytes, hread] at htinyRead
    rw [Except.ok.inj htinyRead]
    exact ⟨b.maxStack_le_asStored, b.initLocals_asStored, b.row_asStored⟩
  · obtain ⟨rest, rfl⟩ := exists_header htiny h
    obtain ⟨hstack, hinit, hsig⟩ := fields_of_header hread
    rw [hstack, hinit, hsig]
    exact ⟨UInt16.le_refl _, b.headerFlags_spec.2.2.2, rfl⟩

/-! ## What holds of a body that was read -/

theorem ofNat_le_of_rangeEnd {start length : Nat} {overflow : SectionError} {stop : UInt32}
    (h : rangeEnd start length overflow = .ok stop) : UInt32.ofNat start ≤ stop := by
  unfold rangeEnd at h
  split at h
  · next hlt =>
    cases h
    rw [UInt32.le_iff_toNat_le, UInt32.toNat_ofNat_of_lt' (by omega),
      UInt32.toNat_ofNat_of_lt' hlt]
    omega
  · cases h

theorem ordered_of_clauseOf {flags tryStart tryLength handlerStart handlerLength extra : Nat}
    {c : Clause UInt32}
    (h : clauseOf flags tryStart tryLength handlerStart handlerLength extra = .ok c) :
    c.Ordered := by
  unfold clauseOf at h
  dsimp only at h
  split at h <;>
  · obtain ⟨kind, -, h⟩ := Result.bind_eq_ok.mp h
    obtain ⟨tryEnd, htry, h⟩ := Result.bind_eq_ok.mp h
    obtain ⟨handlerEnd, hhandler, h⟩ := Result.bind_eq_ok.mp h
    cases h
    exact ⟨ofNat_le_of_rangeEnd htry, ofNat_le_of_rangeEnd hhandler⟩

theorem ordered_of_clauseAt {format : SectionFormat} {data : Bytes} {pos : Nat}
    {c : Clause UInt32} (h : clauseAt format data pos = .ok c) : c.Ordered := by
  cases format <;>
  · obtain ⟨flags, -, h⟩ := Result.bind_eq_ok.mp h
    obtain ⟨tryStart, -, h⟩ := Result.bind_eq_ok.mp h
    obtain ⟨tryLength, -, h⟩ := Result.bind_eq_ok.mp h
    obtain ⟨handlerStart, -, h⟩ := Result.bind_eq_ok.mp h
    obtain ⟨handlerLength, -, h⟩ := Result.bind_eq_ok.mp h
    obtain ⟨extra, -, h⟩ := Result.bind_eq_ok.mp h
    exact ordered_of_clauseOf h

theorem ordered_of_clausesAt {format : SectionFormat} {data : Bytes} {count pos : Nat}
    {cs : List (Clause UInt32)} (h : clausesAt format data count pos = .ok cs) :
    ∀ c ∈ cs, c.Ordered := by
  induction count generalizing pos cs with
  | zero =>
    cases h
    simp
  | succ count ih =>
    obtain ⟨c, hc, h⟩ := Result.bind_eq_ok.mp h
    obtain ⟨rest, hrest, h⟩ := Result.bind_eq_ok.mp h
    cases h
    exact List.forall_mem_cons.mpr ⟨ordered_of_clauseAt hc, ih hrest⟩

theorem ordered_of_sectionAt {data : Bytes} {pos : Nat} {r : List (Clause UInt32) × Bool}
    (h : sectionAt data pos = .ok r) : ∀ c ∈ r.1, c.Ordered := by
  obtain ⟨kind, -, h⟩ := Result.bind_eq_ok.mp h
  dsimp only at h
  split at h
  · cases h
  · obtain ⟨size, -, h⟩ := Result.bind_eq_ok.mp h
    obtain ⟨clauses, hclauses, h⟩ := Result.bind_eq_ok.mp h
    cases h
    exact ordered_of_clausesAt hclauses

theorem ordered_of_sectionsFrom {data : Bytes} {pos : Nat} {cs : List (Clause UInt32)}
    (h : sectionsFrom data pos = .ok cs) : ∀ c ∈ cs, c.Ordered := by
  rw [sectionsFrom_eq] at h
  obtain ⟨⟨clauses, more⟩, hsection, h⟩ := Result.bind_eq_ok.mp h
  have hclauses := ordered_of_sectionAt hsection
  have hlt := lt_of_sectionAt hsection
  cases more with
  | false =>
    cases h
    exact hclauses
  | true =>
    obtain ⟨rest, hrest, h⟩ := Result.map_eq_ok.mp h
    subst h
    exact List.forall_mem_append.mpr ⟨hclauses, ordered_of_sectionsFrom hrest⟩
termination_by data.length - pos

theorem numberAt_lt {width pos n : Nat} {data : Bytes} (h : numberAt width pos data = .ok n) :
    n < Nat.pow 256 width := by
  obtain ⟨⟨m, rest⟩, hm, rfl⟩ := Result.map_eq_ok.mp h
  exact fetch_lt hm

theorem length_of_slice {pos length : Nat} {data xs : Bytes}
    (h : slice pos length data = .ok xs) : xs.length = length := by
  unfold slice at h
  split at h
  · cases h
    rw [List.length_take, List.length_drop]
    omega
  · cases h

/-- The code is shorter than a size field can say, and no range ends before it starts. -/
theorem of_ofBytes {data : Bytes} {b : MethodBody} (h : ofBytes data = .ok b) :
    b.code.length < 2 ^ 32 ∧ ∀ c ∈ b.clauses, c.Ordered := by
  obtain ⟨first, hfirst, h⟩ := Result.bind_eq_ok.mp h
  have hlt : first < 256 := numberAt_lt hfirst
  split at h
  · obtain ⟨code, hcode, h⟩ := Result.bind_eq_ok.mp h
    cases h
    have := length_of_slice hcode
    exact ⟨by dsimp only; omega, by simp⟩
  · obtain ⟨word, -, h⟩ := Result.bind_eq_ok.mp h
    dsimp only at h
    split at h
    · cases h
    · obtain ⟨maxStack, -, h⟩ := Result.bind_eq_ok.mp h
      obtain ⟨codeSize, hsize, h⟩ := Result.bind_eq_ok.mp h
      obtain ⟨localSig, -, h⟩ := Result.bind_eq_ok.mp h
      obtain ⟨code, hcode, h⟩ := Result.bind_eq_ok.mp h
      have hlen := length_of_slice hcode
      have hlt : codeSize < 2 ^ 32 := numberAt_lt hsize
      split at h
      · obtain ⟨clauses, hclauses, h⟩ := Result.bind_eq_ok.mp h
        cases h
        exact ⟨by dsimp only; omega, ordered_of_sectionsFrom hclauses⟩
      · obtain ⟨clauses, hclauses, h⟩ := Result.bind_eq_ok.mp h
        cases hclauses
        cases h
        exact ⟨by dsimp only; omega, by simp⟩
  · cases h

/-! ## Round trip -/

/-- A body can be written exactly if a section has room for its clauses. It is read back as it
was, whatever follows it, unless it has the tiny form: then the stack has room for eight, and the
signature of the locals is the nil token. Either way nothing that matters is lost. -/
theorem stored_roundtrip {b : MethodBody} (hcode : b.code.length < 2 ^ 32)
    (hordered : ∀ c ∈ b.clauses, c.Ordered) :
    ((∃ bytes, b.toBytes = .ok bytes) ↔ b.clauses.length ≤ 699050) ∧
      ∀ bytes, b.toBytes = .ok bytes → ∀ rest, ∃ back, ofBytes (bytes ++ rest) = .ok back ∧
        back = (if b.isTiny then { b with maxStack := 8, localSig := ⟨0⟩ } else b) ∧
        b.maxStack ≤ back.maxStack ∧ back.localSig.row = b.localSig.row ∧
        back.code = b.code ∧ back.clauses = b.clauses := by
  refine ⟨exists_toBytes_iff, fun bytes hbytes rest => ?_⟩
  exact ⟨b.asStored, ofBytes_toBytes hbytes hcode hordered rest, rfl, b.maxStack_le_asStored,
    b.row_asStored, b.code_asStored, b.clauses_asStored⟩

/-- A body with a clause of each kind, and code that does not end at a multiple of four. -/
def manyClauses : MethodBody where
  maxStack := 3
  initLocals := true
  localSig := ⟨0x11000001⟩
  code := [0x00, 0xde, 0x01, 0xdc, 0x2a]
  clauses := [⟨.catchType ⟨0x01000002⟩, 0, 3, 3, 4⟩, ⟨.filter 1, 0, 1, 3, 4⟩,
    ⟨.finallyBlock, 0, 3, 3, 4⟩, ⟨.fault, 1, 1, 4, 0xffffffff⟩]

/-- A body in the tiny form, with a token for the locals that names a table but no row. -/
def rowless : MethodBody := ⟨3, false, ⟨0x11000000⟩, [0x17, 0x2a], []⟩

theorem stored_roundtrip_manyClauses :
    (manyClauses.code.length < 2 ^ 32 ∧ (∀ c ∈ manyClauses.clauses, c.Ordered) ∧
        ∃ bytes, manyClauses.toBytes = .ok bytes ∧ ofBytes (bytes ++ [0xff]) = .ok manyClauses) ∧
      rowless.code.length < 2 ^ 32 ∧ (∀ c ∈ rowless.clauses, c.Ordered) ∧
        ∃ bytes, rowless.toBytes = .ok bytes ∧
          ofBytes (bytes ++ [0xff]) = .ok ⟨8, false, ⟨0⟩, [0x17, 0x2a], []⟩ := by
  have hcode : manyClauses.code.length < 2 ^ 32 := by decide
  have hordered : ∀ c ∈ manyClauses.clauses, c.Ordered := by decide
  obtain ⟨hwritten, hread⟩ := stored_roundtrip hcode hordered
  obtain ⟨bytes, hbytes⟩ := hwritten.mpr (by decide)
  obtain ⟨_, hback, rfl, -⟩ := hread bytes hbytes [0xff]
  have hcode' : rowless.code.length < 2 ^ 32 := by decide
  have hordered' : ∀ c ∈ rowless.clauses, c.Ordered := by decide
  obtain ⟨hwritten', hread'⟩ := stored_roundtrip hcode' hordered'
  obtain ⟨bytes', hbytes'⟩ := hwritten'.mpr (by decide)
  obtain ⟨_, hback', rfl, -⟩ := hread' bytes' hbytes' [0xff]
  exact ⟨⟨hcode, hordered, bytes, hbytes, hback⟩, hcode', hordered', bytes', hbytes', hback'⟩

end MethodBody

end CilCoverage
