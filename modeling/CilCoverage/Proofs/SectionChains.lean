/-
  Bodies with several data sections.

  Each section lies at the first multiple of four behind the one before
  (`ChainAt`), but the next one is looked for right behind the four header bytes.
  There lies the first clause of a section that is not empty, and the flags of
  that clause are taken for the kind of a section: those of a filter for an empty
  one without a successor, all others for one that is not supported
  (`sectionAt_of_entry`). So clauses are read up to the first section that has
  any, and no further (`ofBytes_chain`).
-/
import CilCoverage.Proofs.StoredBody

namespace CilCoverage

namespace MethodBody

/-- Sections in the data, the first one at `pos`, each other one at the first multiple of four
behind the one before, and all but the last announcing another. -/
inductive ChainAt (data : Bytes) : (pos : Nat) → List ExceptionSection → Prop
  | last {pos : Nat} {s : ExceptionSection} :
    s.bytes false <+: data.drop pos → ChainAt data pos [s]
  | more {pos : Nat} {s : ExceptionSection} {rest : List ExceptionSection} :
    s.bytes true <+: data.drop pos → ChainAt data (align4 (pos + s.size)) rest →
      ChainAt data pos (s :: rest)

/-- What is read of a chain of sections with these clauses. -/
def readChain : List (List (Clause UInt32)) → Except CodeError (List (Clause UInt32))
  | [] => .ok []
  | [] :: rest => readChain rest
  | [cs] => .ok cs
  | (c :: cs) :: _ :: _ =>
    match c.kind with
    | .filter _ => .ok (c :: cs)
    | kind => .error (.dataSection (.unsupportedKind (clauseTag kind).1))

/-! ## One section -/

/-- What is read where a clause lies and a section is looked for. -/
theorem sectionAt_of_entry {format : SectionFormat} {data rest : Bytes} {pos : Nat}
    {e : Entry format} (h : data.drop pos = e.bytes ++ rest) :
    sectionAt data pos = match e.clause.kind with
      | .filter _ => .ok ([], false)
      | kind => .error (.dataSection (.unsupportedKind (clauseTag kind).1)) := by
  obtain ⟨tail, htail⟩ : ∃ tail, e.bytes =
      Bytes.ofNat 1 e.fields.flags ++ (Bytes.ofNat 1 (e.fields.flags / 256) ++ tail) := by
    cases format <;> exact ⟨_, rfl⟩
  rw [htail, List.append_assoc, List.append_assoc] at h
  have hkind := numberAt_of_drop h
  have hsize := numberAt_of_drop (drop_add_of_drop h 1 (Bytes.length_ofNat _ _))
  have hnames := e.denotes.kind
  rw [sectionAt, hkind]
  cases hc : e.clause.kind <;> simp only [hc, ClauseFields.Names] at hnames
  case filter start =>
    -- the kind of a small section, of size zero
    rw [hnames.1] at hsize ⊢
    simp only [bind, Except.bind]
    rw [if_neg (by decide)]
    simp only [SectionFormat.sizeWidth]
    rw [if_neg (by decide)]
    simp only [hsize]
    rfl
  case catchType type =>
    rw [hnames.1]
    rfl
  all_goals
    rw [hnames]
    rfl

/-! ## Chains -/

theorem sectionsFrom_chain {data : Bytes} {pos : Nat} {sections : List ExceptionSection}
    (h : ChainAt data pos sections) (hpos : pos % 4 = 0) :
    sectionsFrom data pos = readChain (sections.map ExceptionSection.clauses) := by
  induction h with
  | @last pos s hs =>
    obtain ⟨rest, hs⟩ := hs
    rw [sectionsFrom_eq, sectionAt_of_drop hs.symm]
    cases hcs : s.clauses <;> simp [hcs, readChain, bind, Except.bind]
  | @more pos s sections hs hchain ih =>
    obtain ⟨rest, hs⟩ := hs
    rw [sectionsFrom_eq, sectionAt_of_drop hs.symm]
    simp only [bind, Except.bind, if_true]
    cases hentries : s.entries with
    | nil =>
      have hclauses : s.clauses = [] := by rw [ExceptionSection.clauses, hentries, List.map_nil]
      have hnext : align4 (pos + s.size) = pos + 4 := by
        rw [ExceptionSection.size, hentries, List.length_nil, align4]
        omega
      rw [hnext] at ih
      rw [ih (by omega), List.map_cons, hclauses, readChain]
      cases readChain (sections.map ExceptionSection.clauses) <;> rfl
    | cons e entries =>
      have hclauses : s.clauses = e.clause :: entries.map Entry.clause := by
        rw [ExceptionSection.clauses, hentries, List.map_cons]
      have hentry := s.drop_entries hs.symm
      rw [hentries, List.flatMap_cons, List.append_assoc] at hentry
      obtain ⟨next, more, rfl⟩ : ∃ next more, sections = next :: more := by
        cases hchain <;> exact ⟨_, _, rfl⟩
      rw [sectionsFrom_eq, sectionAt_of_entry hentry, List.map_cons, List.map_cons, hclauses,
        readChain]
      cases e.clause.kind <;> simp [bind, Except.bind, Except.map]

/-- The first clause is a filter. -/
def FilterFirst (cs : List (Clause UInt32)) : Prop :=
  ∃ c ∈ cs.head?, ∃ start, c.kind = .filter start

/-- All clauses are in one section, which is the last or begins with a filter. -/
def InOneSection (sections : List ExceptionSection) : Prop :=
  ∃ before s after, sections = before ++ s :: after ∧
    (∀ other ∈ before ++ after, other.clauses = []) ∧ (after = [] ∨ FilterFirst s.clauses)

theorem inOneSection_cons_of_nil {s next : ExceptionSection} {rest : List ExceptionSection}
    (hs : s.clauses = []) : InOneSection (s :: next :: rest) ↔ InOneSection (next :: rest) := by
  constructor
  · rintro ⟨before, t, after, hsplit, hothers, hlast⟩
    cases before with
    | nil =>
      obtain ⟨rfl, rfl⟩ := List.cons.inj hsplit
      -- no clause at all: any section will do, and the last one has no successor
      have hall : ∀ other ∈ next :: rest, other.clauses = [] := by simpa using hothers
      refine ⟨(next :: rest).dropLast, _, [],
        (List.dropLast_append_getLast (List.cons_ne_nil next rest)).symm, ?_, .inl rfl⟩
      rw [List.append_nil]
      exact fun other hother => hall other (List.dropLast_subset _ hother)
    | cons b before =>
      obtain ⟨rfl, hrest⟩ := List.cons.inj hsplit
      exact ⟨before, t, after, hrest,
        fun other hother => hothers other (List.mem_cons_of_mem _ hother), hlast⟩
  · rintro ⟨before, t, after, hsplit, hothers, hlast⟩
    refine ⟨s :: before, t, after, by rw [hsplit]; rfl, ?_, hlast⟩
    exact List.forall_mem_cons.mpr ⟨hs, hothers⟩

theorem inOneSection_cons_of_ne {s next : ExceptionSection} {rest : List ExceptionSection}
    (hs : s.clauses ≠ []) : InOneSection (s :: next :: rest) ↔
      FilterFirst s.clauses ∧ ∀ other ∈ next :: rest, other.clauses = [] := by
  constructor
  · rintro ⟨before, t, after, hsplit, hothers, hlast⟩
    cases before with
    | nil =>
      obtain ⟨rfl, rfl⟩ := List.cons.inj hsplit
      exact ⟨hlast.resolve_left (List.cons_ne_nil _ _), hothers⟩
    | cons b before =>
      obtain ⟨rfl, -⟩ := List.cons.inj hsplit
      exact absurd (hothers s (by simp)) hs
  · rintro ⟨hfilter, hothers⟩
    exact ⟨[], s, next :: rest, rfl, hothers, .inr hfilter⟩

/-- Nothing is lost exactly if one section has all the clauses and is read to its end. -/
theorem readChain_eq_flatMap_iff {sections : List ExceptionSection} (hne : sections ≠ []) :
    readChain (sections.map ExceptionSection.clauses) =
      .ok (sections.flatMap ExceptionSection.clauses) ↔ InOneSection sections := by
  induction sections with
  | nil => exact absurd rfl hne
  | cons s sections ih =>
    cases sections with
    | nil =>
      have hone : InOneSection [s] := ⟨[], s, [], rfl, by simp, .inl rfl⟩
      cases hcs : s.clauses <;> simp [hcs, readChain, hone]
    | cons next rest =>
      have hih := ih (List.cons_ne_nil _ _)
      cases hcs : s.clauses with
      | nil =>
        rw [inOneSection_cons_of_nil hcs, ← hih, List.map_cons, hcs, readChain,
          List.flatMap_cons, hcs, List.nil_append]
      | cons c cs =>
        rw [inOneSection_cons_of_ne (by rw [hcs]; exact List.cons_ne_nil _ _), List.map_cons,
          List.map_cons, hcs, readChain, List.flatMap_cons, hcs]
        have hfilter : FilterFirst (c :: cs) ↔ ∃ start, c.kind = .filter start := by
          simp [FilterFirst]
        rw [hfilter]
        cases c.kind <;> simp [List.flatMap_eq_nil_iff]

/-- A body in the fat form whose sections form a chain is read in full exactly if one section has
all the clauses and is the last or begins with a filter. -/
theorem ofBytes_chain {h : Header} {code data : Bytes} {sections : List ExceptionSection}
    (hmore : h.moreSections = true) (hcode : code.length < 2 ^ 32)
    (hbody : h.bytes code.length ++ code <+: data)
    (hchain : ChainAt data (align4 (12 + code.length)) sections) :
    ofBytes data = (readChain (sections.map ExceptionSection.clauses)).map
        (fun clauses => ⟨h.maxStack, h.initLocals, h.localSig, code, clauses⟩) ∧
      (ofBytes data = .ok ⟨h.maxStack, h.initLocals, h.localSig, code,
          sections.flatMap ExceptionSection.clauses⟩ ↔ InOneSection sections) := by
  obtain ⟨rest, hdata⟩ := hbody
  rw [List.append_assoc] at hdata
  have hpos : align4 (12 + code.length) % 4 = 0 := by
    rw [align4]
    omega
  have hread := @ofBytes_header h code rest hcode
  rw [hdata, hmore, if_pos rfl, sectionsFrom_chain hchain hpos] at hread
  have hne : sections ≠ [] := by cases hchain <;> exact List.cons_ne_nil _ _
  refine ⟨hread, ?_⟩
  rw [hread, ← readChain_eq_flatMap_iff hne, Result.map_eq_ok]
  simp

/-! ## Two and three sections -/

/-- A header before sections. -/
def sectionsFollow : Header := ⟨0x0b, rfl, by decide, 8, ⟨0⟩⟩

def finallyEntry : Entry .small :=
  ⟨⟨2, 0, 1, 1, 1, 0⟩, by decide, ⟨.finallyBlock, 0, 1, 1, 2⟩, rfl, rfl, rfl, rfl, rfl⟩

def catchEntry : Entry .small :=
  ⟨⟨0, 0, 1, 1, 1, 0x01000002⟩, by decide, ⟨.catchType ⟨0x01000002⟩, 0, 1, 1, 2⟩,
    ⟨rfl, rfl⟩, rfl, rfl, rfl, rfl⟩

def filterEntry : Entry .fat :=
  ⟨⟨1, 0, 1, 1, 1, 1⟩, by decide, ⟨.filter 1, 0, 1, 1, 2⟩, ⟨rfl, rfl⟩, rfl, rfl, rfl, rfl⟩

/-- Two instructions, a section with one clause and another one with one clause. -/
def twoSections : Bytes :=
  sectionsFollow.bytes 2 ++ [0x00, 0x2a, 0, 0] ++
    (ExceptionSection.ofEntries .small [finallyEntry] (by decide)).bytes true ++
    (ExceptionSection.ofEntries .small [catchEntry] (by decide)).bytes false

/-- An empty section, one of the wide layout that begins with a filter, and an empty one. -/
def filterBetween : List ExceptionSection :=
  [.ofEntries .small [] (by decide),
    { ExceptionSection.ofEntries .fat [filterEntry] (by decide) with spare := ⟨3, by decide⟩ },
    .ofEntries .small [] (by decide)]

/-- Two instructions and the three sections. -/
def threeSections : Bytes :=
  sectionsFollow.bytes 2 ++ [0x00, 0x2a, 0, 0] ++ [0x81, 4, 0, 0] ++
    [0xcd, 28, 0, 0, 1, 0, 0, 0, 0, 0, 0, 0, 1, 0, 0, 0, 1, 0, 0, 0, 1, 0, 0, 0, 1, 0, 0, 0] ++
    [0x01, 4, 0, 0]

theorem ofBytes_chain_filterBetween :
    sectionsFollow.moreSections = true ∧ sectionsFollow.bytes 2 ++ [0x00, 0x2a] <+: threeSections ∧
      ChainAt threeSections (align4 14) filterBetween ∧
      ofBytes threeSections = .ok ⟨8, false, ⟨0⟩, [0x00, 0x2a], [⟨.filter 1, 0, 1, 1, 2⟩]⟩ := by
  have hbody : sectionsFollow.bytes 2 ++ [0x00, 0x2a] <+: threeSections := by decide
  have hchain : ChainAt threeSections (align4 14) filterBetween :=
    .more (by decide) (.more (by decide) (.last (by decide)))
  have hone : InOneSection filterBetween :=
    ⟨[_], _, [_], rfl, by decide, .inr ⟨_, rfl, 1, rfl⟩⟩
  exact ⟨rfl, hbody, hchain,
    (@ofBytes_chain _ [0x00, 0x2a] _ _ rfl (by decide) hbody hchain).2.mpr hone⟩

/-- Of two sections with a clause each not even the first clause is given. -/
theorem twoSections_not_read :
    sectionsFollow.moreSections = true ∧ sectionsFollow.bytes 2 ++ [0x00, 0x2a] <+: twoSections ∧
      ChainAt twoSections (align4 14)
        [.ofEntries .small [finallyEntry] (by decide),
          .ofEntries .small [catchEntry] (by decide)] ∧
      ofBytes twoSections = .error (.dataSection (.unsupportedKind 2)) := by
  refine ⟨rfl, by decide, .more (by decide) (.last (by decide)), ?_⟩
  decide +kernel

end MethodBody

end CilCoverage
