/-
  What each row of the summary tree stands for.

  Going down from the root, the first names of the rows on the way
  (`Reaches`) make up the place of a row. A row describes the files below its
  place (`Describes`), and so does every row under it. Paths that are put
  together from names are taken apart into the same names
  (`segments_intercalate`), so no two rows have the same full name. Put
  together: `tree_describes`.
-/
import CilCoverage.Proofs.Summary.Tree

namespace CilCoverage.SummaryRow

/-! ## Paths and their names -/

/-- The character divides a path. -/
def isMark (c : Char) : Bool := c == '/' || c == '\\'

/-- A text that can be a name along a path. -/
structure IsName (name : String) : Prop where
  ne_empty : name ≠ ""
  unmarked : ∀ c ∈ name.toList, isMark c = false

theorem isName_of_mem_segments {path name : String} (h : name ∈ segments path) : IsName name := by
  refine ⟨ne_empty_of_mem_segments h, ?_⟩
  obtain ⟨piece, hpiece, rfl⟩ := List.mem_map.mp h
  rw [String.toList_ofList]
  exact Text.unmarked_of_mem_pieces (List.mem_filter.mp hpiece).1

theorem segments_eq_of_unmarked {name : String} (h : IsName name) : segments name = [name] := by
  have hne : name.toList.isEmpty = false := by
    simpa using fun hnil => h.ne_empty (String.toList_eq_nil_iff.mp hnil)
  have hpieces : Text.pieces (fun c => c == '/' || c == '\\') name.toList = [name.toList] :=
    Text.pieces_of_unmarked h.unmarked
  simp [segments, hpieces, hne]

/-- A mark divides a path into the paths before and after it. -/
theorem segments_append_slash (a b : String) :
    segments (a ++ "/" ++ b) = segments a ++ segments b := by
  have htext : (a ++ "/" ++ b).toList = a.toList ++ '/' :: b.toList := by
    simp [String.toList_append]
  rw [segments, htext, Text.pieces_append (by decide), List.filter_append, List.map_append]
  rfl

/-- A path that is put together from names has these names. -/
theorem segments_intercalate {names : List String} (h : ∀ name ∈ names, IsName name) :
    segments ("/".intercalate names) = names := by
  induction names with
  | nil => decide +kernel
  | cons name rest ih =>
    obtain ⟨hname, hrest⟩ := List.forall_mem_cons.mp h
    by_cases hnil : rest = []
    · rw [hnil, String.intercalate_singleton, segments_eq_of_unmarked hname]
    · rw [String.intercalate_cons_of_ne_nil hnil, segments_append_slash,
        segments_eq_of_unmarked hname, ih hrest]
      rfl

theorem intercalate_inj {names names' : List String} (h : ∀ name ∈ names, IsName name)
    (h' : ∀ name ∈ names', IsName name) (heq : "/".intercalate names = "/".intercalate names') :
    names = names' := by
  rw [← segments_intercalate h, heq, segments_intercalate h']

/-! ## Ways down the tree -/

/-- The first name of what the row is called, which tells it from its siblings. -/
def firstName (row : SummaryRow) : String := (segments row.name).headD ""

/-- From a row the way down along these first names leads to a row. -/
inductive Reaches : SummaryRow → List String → SummaryRow → Prop
  | here (row : SummaryRow) : Reaches row [] row
  | down {row child target : SummaryRow} {place : List String} (hchild : child ∈ row.children)
      (h : Reaches child place target) : Reaches row (child.firstName :: place) target

/-- There is a way down to every row of the flattened tree. -/
theorem exists_reaches (row : SummaryRow) {target : SummaryRow} (h : target ∈ row.flatten) :
    ∃ place, Reaches row place target := by
  rw [flatten_eq, List.mem_cons] at h
  rcases h with rfl | h
  · exact ⟨[], .here target⟩
  · obtain ⟨child, hchild, h⟩ := List.mem_flatMap.mp h
    obtain ⟨place, hplace⟩ := exists_reaches child h
    exact ⟨child.firstName :: place, .down hchild hplace⟩
termination_by sizeOf row
decreasing_by
  cases row
  have hlt := List.sizeOf_lt_of_mem hchild
  simp only [children, mk.sizeOf_spec] at hlt ⊢
  omega

/-! ## What a row describes -/

/-- The row describes the files whose paths begin with the names of its place. -/
structure Describes (summarize : List SourceFile → Summary) (files : List SourceFile)
    (place : List String) (row : SummaryRow) : Prop where
  files_eq : row.files = files.filter fun f => decide (place <+: segments f.path)
  summary_eq : row.summary = summarize row.files
  level_eq : row.level = place.length
  kind_eq : row.kind =
    if place = [] then .root else if row.files.length = 1 then .file else .folder
  folder_name : row.kind = .folder → row.fullName = "/".intercalate place
  file_name : row.kind = .file → ∀ f ∈ row.files, row.fullName = "/".intercalate (segments f.path)
  child_level : ∀ child ∈ row.children, child.level = row.level + 1
  /-- The names that come next, in the order in which the files first show them. -/
  children_eq : row.children.map firstName =
    if row.kind = .file then []
    else (row.files.filterMap fun f => (segments f.path)[place.length]?).eraseDups

section Rows

variable {summarize : List SourceFile → Summary} {files : List SourceFile} {place : List String}

theorem nextNames_eq (files : List SourceFile) (place : List String) : nextNames files place =
    ((filesBelow files place).filterMap fun f => (segments f.path)[place.length]?).eraseDups := by
  have hheads : (itemsAt files place).filterMap (·.segments.head?) =
      (filesBelow files place).filterMap fun f => (segments f.path)[place.length]? := by
    rw [itemsAt, List.filterMap_map]
    exact List.filterMap_congr fun f _ => List.head?_drop
  rw [nextNames, heads, hheads]

/-- The row is the one with this place's last name, and every row from it down describes the
files below its own place. -/
def DescribesAll (summarize : List SourceFile → Summary) (files : List SourceFile)
    (place : List String) (row : SummaryRow) : Prop :=
  place.getLast? = some row.firstName ∧
    ∀ rest target, Reaches row rest target → Describes summarize files (place ++ rest) target

/-- The children of a row, if they describe what is below the places one name further. -/
theorem of_describesAll {children : List SummaryRow}
    (h : List.Forall₂ (fun next child => DescribesAll summarize files (place ++ [next]) child)
      (nextNames files place) children) :
    children.map firstName = nextNames files place ∧
      ∀ child ∈ children, child.level = place.length + 1 ∧
        DescribesAll summarize files (place ++ [child.firstName]) child := by
  have hnext : ∀ {next child}, DescribesAll summarize files (place ++ [next]) child →
      next = child.firstName := fun h => by simpa using h.1
  constructor
  · rw [← List.forall₂_eq_eq_eq, List.forall₂_map_left_iff]
    exact h.flip.imp fun child next hchild => (hnext hchild).symm
  · intro child hchild
    obtain ⟨next, -, hall⟩ := Result.exists_mem_left h hchild
    obtain rfl := hnext hall
    have hlevel := (hall.2 [] child (.here child)).level_eq
    rw [List.append_nil, List.length_append, List.length_singleton] at hlevel
    exact ⟨hlevel, hall⟩

/-- Every row from one down describes its files, if the row does and its children do. -/
theorem Describes.of_children {row : SummaryRow} (hrow : Describes summarize files place row)
    (h : List.Forall₂ (fun next child => DescribesAll summarize files (place ++ [next]) child)
      (nextNames files place) row.children) {rest : List String} {target : SummaryRow}
    (hreach : Reaches row rest target) : Describes summarize files (place ++ rest) target := by
  cases hreach with
  | here => rwa [List.append_nil]
  | @down _ child _ rest hchild hreach =>
    have hall := ((of_describesAll h).2 child hchild).2.2 rest target hreach
    rwa [List.append_assoc] at hall

/-- The row of the only file below a place. -/
theorem describesAll_file {f : SourceFile} (hne : place ≠ []) (hf : filesBelow files place = [f]) :
    DescribesAll summarize files place
      (mk place.length ("/".intercalate ((segments f.path).drop (place.length - 1)))
        ("/".intercalate (segments f.path)) .file [f] (summarize [f]) []) := by
  obtain ⟨before, name, rfl⟩ := (List.eq_nil_or_concat' place).resolve_left hne
  obtain ⟨-, rest, hrest⟩ := mem_filesBelow.mp (hf ▸ List.mem_singleton_self f)
  have hdrop : (segments f.path).drop ((before ++ [name]).length - 1) = name :: rest := by
    rw [List.length_append, List.length_singleton, Nat.add_sub_cancel, ← hrest, List.append_assoc,
      List.drop_left]
    rfl
  constructor
  · have hnames : ∀ n ∈ name :: rest, IsName n := fun n hn =>
      isName_of_mem_segments (List.mem_of_mem_drop (hdrop ▸ hn))
    rw [List.getLast?_concat, hdrop, firstName, SummaryRow.name, segments_intercalate hnames]
    rfl
  · intro rest target hreach
    cases hreach with
    | down hchild => cases hchild
    | here =>
      rw [List.append_nil]
      refine ⟨hf.symm, rfl, rfl, ((if_neg hne).trans (if_pos rfl)).symm, nofun, ?_, nofun, rfl⟩
      rintro - g hg
      rw [List.mem_singleton.mp hg]
      rfl

/-- The row of a place with several files below. -/
theorem describesAll_folder {name : String} {children : List SummaryRow}
    (hname : place.getLast? = some name) (hlong : 2 ≤ (filesBelow files place).length)
    (h : List.Forall₂ (fun next child => DescribesAll summarize files (place ++ [next]) child)
      (nextNames files place) children) :
    DescribesAll summarize files place
      (mk place.length name ("/".intercalate place) .folder (filesBelow files place)
        (summarize (filesBelow files place)) children) := by
  have hne : place ≠ [] := by
    rintro rfl
    cases hname
  obtain ⟨hnames, hchildren⟩ := of_describesAll h
  constructor
  · obtain ⟨f, hf⟩ := List.exists_mem_of_length_pos (Nat.lt_of_lt_of_le (by decide) hlong)
    have hbelow := (mem_filesBelow.mp hf).2
    have hisName := isName_of_mem_segments (hbelow.subset (List.mem_of_getLast? hname))
    rw [hname, firstName, SummaryRow.name, segments_eq_of_unmarked hisName]
    rfl
  · have hmany : (filesBelow files place).length ≠ 1 := by omega
    refine fun rest target hreach => Describes.of_children ?_ h hreach
    exact ⟨rfl, rfl, rfl, ((if_neg hne).trans (if_neg hmany)).symm, fun _ => rfl, nofun,
      fun child hchild => (hchildren child hchild).1, hnames.trans (nextNames_eq files place)⟩

/-! ## Full names -/

/-- The full name of the row is put together from names that begin with those of a place. -/
def NamedBelow (place : List String) (row : SummaryRow) : Prop :=
  ∃ names, (∀ name ∈ names, IsName name) ∧ place <+: names ∧
    row.fullName = "/".intercalate names

/-- No two rows from a row down have one full name, and all names begin with those of a place. -/
def NamesApart (place : List String) (row : SummaryRow) : Prop :=
  (row.flatten.map fullName).Nodup ∧ ∀ r ∈ row.flatten, NamedBelow place r

/-- Rows of different groups have different full names. -/
theorem namesApart_children {nexts : List String} {children : List SummaryRow}
    (hnodup : nexts.Nodup)
    (h : List.Forall₂ (fun next child => NamesApart (place ++ [next]) child) nexts children) :
    ((children.flatMap flatten).map fullName).Nodup ∧
      ∀ r ∈ children.flatMap flatten, ∃ next ∈ nexts, NamedBelow (place ++ [next]) r := by
  induction h with
  | nil => simp
  | @cons next child nexts children hchild hchildren ih =>
    obtain ⟨hnext, hnodup⟩ := List.nodup_cons.mp hnodup
    obtain ⟨hrest, hbelow⟩ := ih hnodup
    rw [List.flatMap_cons, List.map_append, List.nodup_append]
    refine ⟨⟨hchild.1, hrest, ?_⟩, ?_⟩
    · rintro _ hfirst _ hsecond heq
      obtain ⟨r, hr, rfl⟩ := List.mem_map.mp hfirst
      obtain ⟨s, hs, rfl⟩ := List.mem_map.mp hsecond
      obtain ⟨names, hnames, hplace, hname⟩ := hchild.2 r hr
      obtain ⟨other, hother, names', hnames', hplace', hname'⟩ := hbelow s hs
      rw [hname, hname'] at heq
      obtain rfl := intercalate_inj hnames hnames' heq
      -- one list of names does not go on from the place in two ways
      obtain rfl : next = other := Option.some.inj
        ((snoc_prefix_iff.mp hplace).2.symm.trans (snoc_prefix_iff.mp hplace').2)
      exact hnext hother
    · rintro r hr
      rcases List.mem_append.mp hr with hr | hr
      · exact ⟨next, List.mem_cons_self, hchild.2 r hr⟩
      · obtain ⟨other, hother, hr⟩ := hbelow r hr
        exact ⟨other, List.mem_cons_of_mem next hother, hr⟩

theorem namesApart_file {f : SourceFile} (hf : filesBelow files place = [f]) (level : Nat)
    (name : String) (summary : Summary) :
    NamesApart place
      (mk level name ("/".intercalate (segments f.path)) .file [f] summary []) := by
  have hbelow := (mem_filesBelow.mp (hf ▸ List.mem_singleton_self f)).2
  rw [NamesApart, flatten_eq]
  refine ⟨List.nodup_singleton _, ?_⟩
  rintro r hr
  rw [List.mem_singleton.mp hr]
  exact ⟨segments f.path, fun _ => isName_of_mem_segments, hbelow, rfl⟩

theorem namesApart_folder (hnames : ∀ name ∈ place, IsName name) {children : List SummaryRow}
    (h : List.Forall₂ (fun next child => NamesApart (place ++ [next]) child)
      (nextNames files place) children) (level : Nat) (name : String) (summary : Summary) :
    NamesApart place
      (mk level name ("/".intercalate place) .folder (filesBelow files place) summary children) := by
  obtain ⟨hnodup, hbelow⟩ := namesApart_children (nodup_nextNames files place) h
  rw [NamesApart, flatten_eq, List.map_cons, List.nodup_cons, List.forall_mem_cons]
  refine ⟨⟨fun hmem => ?_, hnodup⟩, ⟨place, hnames, List.prefix_rfl, rfl⟩, fun r hr => ?_⟩
  · obtain ⟨r, hr, heq⟩ := List.mem_map.mp hmem
    obtain ⟨next, -, names, hnames', hplace, hname⟩ := hbelow r hr
    -- the names of the folder are fewer than those of what is in it
    obtain rfl := intercalate_inj hnames' hnames (hname.symm.trans heq)
    have hlength := hplace.length_le
    rw [List.length_append, List.length_singleton] at hlength
    omega
  · obtain ⟨next, -, names, hnames', hplace, hname⟩ := hbelow r hr
    exact ⟨names, hnames', (List.prefix_append place [next]).trans hplace, hname⟩

end Rows

/-! ## The whole tree -/

section Tree

variable (threshold : Threshold) (policy : HitPolicy) (hits : Hits) (files : List SourceFile)

theorem describes_of_reaches {place : List String} {row : SummaryRow}
    (h : Reaches (tree threshold policy hits files) place row) :
    Describes (Summary.ofFiles threshold policy hits) files place row := by
  obtain ⟨depth, hdepth, htree⟩ := exists_children_tree threshold policy hits files
  have hchildren := rows_induction
    (P := DescribesAll (Summary.ofFiles threshold policy hits) files)
    (fun _ _ => describesAll_file) (fun _ _ _ => describesAll_folder) depth [] hdepth
  rw [htree] at h
  rw [← List.nil_append place]
  refine Describes.of_children ?_ hchildren h
  obtain ⟨hnames, hlevels⟩ := of_describesAll hchildren
  have hnext := nextNames_eq files []
  rw [filesBelow_nil] at hnext
  exact ⟨(filesBelow_nil files).symm, rfl, rfl, rfl, nofun, nofun,
    fun child hchild => (hlevels child hchild).1, hnames.trans hnext⟩

theorem nodup_fullNames : ((tree threshold policy hits files).flatten.tail.map fullName).Nodup := by
  obtain ⟨depth, hdepth, htree⟩ := exists_children_tree threshold policy hits files
  have hchildren := @rows_induction (Summary.ofFiles threshold policy hits) files NamesApart
    (fun _ _ _ hf => namesApart_file hf ..)
    (fun place _ _ _ hlong h => by
      obtain ⟨f, hf⟩ := List.exists_mem_of_length_pos (Nat.lt_of_lt_of_le (by decide) hlong)
      have hbelow := (mem_filesBelow.mp hf).2
      exact namesApart_folder (fun _ hname => isName_of_mem_segments (hbelow.subset hname)) h ..)
    depth [] hdepth
  rw [htree, flatten_eq, List.tail_cons]
  exact (namesApart_children (nodup_nextNames files []) hchildren).1

end Tree

/-- What the rows of the summary tree stand for. The root holds all files. Every row is at a place,
described by the files below it in the order of the input: a single one, or a folder of several,
with the folders and files in it in the order in which the input first shows them. No two rows
below the root have the same full name. -/
theorem tree_describes (threshold : Threshold) (policy : HitPolicy) (hits : Hits)
    (files : List SourceFile) :
    let t := tree threshold policy hits files
    t.kind = .root ∧ t.files = files ∧
      (∀ row ∈ t.flatten, ∃ place, Reaches t place row) ∧
      (∀ place row, Reaches t place row →
        Describes (Summary.ofFiles threshold policy hits) files place row) ∧
      (t.flatten.tail.map fullName).Nodup := by
  obtain ⟨depth, -, htree⟩ := exists_children_tree threshold policy hits files
  refine ⟨?_, ?_, fun row hrow => exists_reaches _ hrow, fun place row h => ?_, ?_⟩
  · rw [htree]
    rfl
  · rw [htree]
    rfl
  · exact describes_of_reaches threshold policy hits files h
  · exact nodup_fullNames threshold policy hits files

/-- Files with either mark in their paths, marks in a row, a path twice, one that goes on from
another, and one without names. -/
def crossing : List SourceFile :=
  [⟨"src/App.cs", []⟩, ⟨"/lib//Util.cs", []⟩, ⟨"src\\App.cs", []⟩, ⟨"src/sub/B.cs", []⟩, ⟨"", []⟩,
    ⟨"src/App.cs/Part.cs", []⟩]

theorem tree_describes_crossing :
    let t := tree .standard .independent (.ofList [(1, 1)]) crossing
    t.files = crossing ∧
      t.flatten.tail.map fullName =
        ["src", "src/App.cs", "src/App.cs/Part.cs", "src/sub/B.cs", "lib/Util.cs"] ∧
      (t.flatten.tail.map fullName).Nodup ∧
      ∃ row, Reaches t ["src"] row ∧ row.kind = .folder ∧ row.level = 1 ∧
        row.files.map (·.path) =
          ["src/App.cs", "src\\App.cs", "src/sub/B.cs", "src/App.cs/Part.cs"] ∧
        row.children.map firstName = ["App.cs", "sub"] := by
  intro t
  obtain ⟨-, hfiles, -, hdescribes, hnodup⟩ :=
    tree_describes .standard .independent (.ofList [(1, 1)]) crossing
  have hchild : ∃ child ∈ t.children, child.firstName = "src" := by decide +kernel
  obtain ⟨row, hchild, hfirst⟩ := hchild
  have hreach : Reaches t ["src"] row := hfirst ▸ .down hchild (.here row)
  have h := hdescribes ["src"] row hreach
  have hpaths : row.files.map (·.path) =
      ["src/App.cs", "src\\App.cs", "src/sub/B.cs", "src/App.cs/Part.cs"] := by
    rw [h.files_eq]
    decide +kernel
  have hkind : row.kind = .folder := by
    rw [h.kind_eq, h.files_eq]
    decide +kernel
  refine ⟨hfiles, by decide +kernel, hnodup, row, hreach, hkind, h.level_eq, hpaths, ?_⟩
  rw [h.children_eq, hkind, h.files_eq]
  decide +kernel

end CilCoverage.SummaryRow
