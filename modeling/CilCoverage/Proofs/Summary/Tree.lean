/-
  The rows of the summary tree.

  A row below the root stands for a place, that is for the names that lead to
  it. One induction over the construction (`rows_induction`) goes through all
  rows with their places. From it: a file has a row of its own if no other file
  lies at its place or below it (`listed_tree`), and a row counts what its
  children count and what ends at its own place (`tally_of_flatten`). A file
  that ends where another one goes on, or ends as well, is in no child and has
  no row, so the tree is complete if there is no such file (`complete_iff`).
-/
import CilCoverage.Proofs.Operands
import CilCoverage.Proofs.Summary.Counting
import CilCoverage.Proofs.Summary.Grouping

namespace CilCoverage.SummaryRow

/-! ## Rows -/

theorem flattenAll_eq (rows : List SummaryRow) : flattenAll rows = rows.flatMap flatten := by
  induction rows with
  | nil => rw [flattenAll, List.flatMap_nil]
  | cons row rows ih => rw [flattenAll, ih, List.flatMap_cons]

/-- A row, then all rows below it. -/
theorem flatten_eq (row : SummaryRow) : row.flatten = row :: row.children.flatMap flatten := by
  cases row
  rw [flatten, flattenAll_eq, children]

/-- The rows of single files, in the order of the flattened tree. -/
def fileRows (row : SummaryRow) : List SummaryRow :=
  row.flatten.filter fun r => decide (r.kind = .file)

/-- What the row counts. -/
def tally (row : SummaryRow) : Tally := row.summary.tally

/-- The path of what the row stands for; there is none at the root. -/
def place (row : SummaryRow) : String :=
  match row.kind with
  | .root => ""
  | _ => row.fullName

/-- The files of the row whose paths end at the row itself. -/
def ended (row : SummaryRow) : List SourceFile :=
  row.files.filter fun f => decide ("/".intercalate (segments f.path) = row.place)

/-! ## Names -/

theorem ne_empty_of_mem_segments {path name : String} (h : name ∈ segments path) : name ≠ "" := by
  obtain ⟨piece, hpiece, rfl⟩ := List.mem_map.mp h
  have hne := (List.mem_filter.mp hpiece).2
  intro heq
  have hnil : piece = [] := by simpa using congrArg String.toList heq
  rw [hnil] at hne
  exact absurd hne (by decide)

theorem ne_empty_of_prefix {place : List String} {path : String} (h : place <+: segments path) :
    ∀ name ∈ place, name ≠ "" :=
  fun _ hname => ne_empty_of_mem_segments (h.subset hname)

theorem intercalate_ne_empty {names : List String} (hne : names ≠ [])
    (h : ∀ name ∈ names, name ≠ "") : "/".intercalate names ≠ "" := by
  cases names with
  | nil => exact absurd rfl hne
  | cons name rest =>
    have hname := h name List.mem_cons_self
    cases rest with
    | nil => rwa [String.intercalate_singleton]
    | cons next rest =>
      rw [String.intercalate_cons_cons]
      intro heq
      simp at heq

/-- Joining puts the names one behind the other. -/
theorem join_intercalate {as bs : List String} (ha : ∀ a ∈ as, a ≠ "") (hb : bs ≠ []) :
    join ("/".intercalate as) ("/".intercalate bs) = "/".intercalate (as ++ bs) := by
  by_cases hnil : as = []
  · subst hnil
    rfl
  · have hne : ("/".intercalate as).isEmpty = false :=
      String.isEmpty_eq_false_iff.mpr (intercalate_ne_empty hnil ha)
    rw [join, hne, String.intercalate_append_of_ne_nil hnil hb]
    rfl

/-- A path that goes on from a place is written otherwise. -/
theorem intercalate_eq_iff {place names : List String} (hbelow : place <+: names)
    (h : ∀ name ∈ names, name ≠ "") :
    "/".intercalate names = "/".intercalate place ↔ names = place := by
  refine ⟨fun heq => ?_, fun heq => heq ▸ rfl⟩
  obtain ⟨rest, rfl⟩ := hbelow
  by_contra hne
  have hrest : rest ≠ [] := fun hnil => hne (by rw [hnil, List.append_nil])
  by_cases hplace : place = []
  · subst hplace
    exact intercalate_ne_empty hrest h heq
  · rw [String.intercalate_append_of_ne_nil hplace hrest] at heq
    have hlength := congrArg String.length heq
    simp only [String.length_append] at hlength
    have hslash : "/".length = 1 := rfl
    omega

/-! ## All rows with their places -/

section Rows

variable {summarize : List SourceFile → Summary} {files : List SourceFile}

/-- What holds of each row below the root, at the place it stands for: the row of a file if the
file is the only one below the place, and otherwise the row of a folder if it holds of the
folder's children at the places one name further. -/
theorem rows_induction {P : List String → SummaryRow → Prop}
    (hfile : ∀ place f, place ≠ [] → filesBelow files place = [f] →
      P place (mk place.length ("/".intercalate ((segments f.path).drop (place.length - 1)))
        ("/".intercalate (segments f.path)) .file [f] (summarize [f]) []))
    (hfolder : ∀ place name children, place.getLast? = some name →
      2 ≤ (filesBelow files place).length →
      List.Forall₂ (fun next row => P (place ++ [next]) row) (nextNames files place) children →
      P place (mk place.length name ("/".intercalate place) .folder (filesBelow files place)
        (summarize (filesBelow files place)) children)) (depth : Nat) (place : List String)
    (hdepth : ∀ f ∈ files, place <+: segments f.path →
      (segments f.path).length ≤ place.length + depth) :
    List.Forall₂ (fun next row => P (place ++ [next]) row) (nextNames files place)
      (rows summarize depth (place.length + 1) ("/".intercalate place) (itemsAt files place)) := by
  induction depth generalizing place with
  | zero =>
    have hnone : nextNames files place = [] := by
      refine List.eq_nil_iff_forall_not_mem.mpr fun name hname => ?_
      obtain ⟨f, hf, hnext⟩ := mem_nextNames.mp hname
      have hlong := hnext.length_le
      have hshort := hdepth f hf (snoc_prefix_iff.mp hnext).1
      rw [List.length_append, List.length_singleton] at hlong
      omega
    rw [hnone]
    exact .nil
  | succ depth ih =>
    rw [rows, group_itemsAt, List.map_map, List.forall₂_map_right_iff, List.forall₂_same]
    intro next hnext
    have hne : place ++ [next] ≠ [] := by simp
    have hlength : (place ++ [next]).length = place.length + 1 := by simp
    obtain ⟨first, hfirst, hbelow⟩ := mem_nextNames.mp hnext
    have hnames : ∀ name ∈ place, name ≠ "" :=
      ne_empty_of_prefix (snoc_prefix_iff.mp hbelow).1
    have hjoin : join ("/".intercalate place) next = "/".intercalate (place ++ [next]) := by
      rw [← join_intercalate hnames (by simp), String.intercalate_singleton]
    have hmap := map_file_itemsAt files (place ++ [next])
    dsimp only [Function.comp]
    split
    · next item hitem =>
      rw [hitem, List.map_singleton] at hmap
      obtain ⟨-, rest, hrest⟩ : item.file ∈ files ∧ place ++ [next] <+: segments item.file.path :=
        mem_filesBelow.mp (hmap ▸ List.mem_singleton_self _)
      -- the item holds what its path has after the place
      have hsegments : item.segments = rest := by
        have hitems : itemsAt files (place ++ [next]) =
            [⟨(segments item.file.path).drop (place ++ [next]).length, item.file⟩] := by
          rw [itemsAt, ← hmap, List.map_singleton]
        rw [hitem, ← hrest, List.drop_left] at hitems
        exact congrArg Item.segments (List.singleton_inj.mp hitems)
      have hafter : (segments item.file.path).drop ((place ++ [next]).length - 1) =
          next :: item.segments := by
        rw [hlength, Nat.add_sub_cancel, ← hrest, hsegments, List.append_assoc, List.drop_left]
        rfl
      have hname : join ("/".intercalate place) ("/".intercalate (next :: item.segments)) =
          "/".intercalate (segments item.file.path) := by
        rw [join_intercalate hnames (by simp), hsegments, ← hrest, List.append_assoc]
        rfl
      rw [hname, hitem, List.map_singleton, ← hafter, ← hlength]
      exact hfile _ _ hne hmap.symm
    · next hmany =>
      have hlong : 2 ≤ (filesBelow files (place ++ [next])).length := by
        have hnonempty := filesBelow_ne_nil hnext
        rw [← hmap] at hnonempty ⊢
        rcases hitems : itemsAt files (place ++ [next]) with _ | ⟨item, _ | ⟨_, _⟩⟩
        · exact absurd (by rw [hitems]; rfl) hnonempty
        · exact absurd hitems (hmany item)
        · simp
      rw [hmap, hjoin, ← hlength]
      refine hfolder _ _ _ List.getLast?_concat hlong (ih _ fun f hf hbelow => ?_)
      have hshort := hdepth f hf ((List.prefix_append _ _).trans hbelow)
      omega

/-- The row shows the files below a place. -/
structure Shows (summarize : List SourceFile → Summary) (files : List SourceFile)
    (place : List String) (row : SummaryRow) : Prop where
  files_eq : row.files = filesBelow files place
  summary_eq : row.summary = summarize row.files

/-- The row shows the files below a place where several come together, and its children show
those below the places one name further. -/
structure Branches (summarize : List SourceFile → Summary) (files : List SourceFile)
    (place : List String) (row : SummaryRow) : Prop extends Shows summarize files place row where
  place_eq : row.place = "/".intercalate place
  several : place = [] ∨ 2 ≤ (filesBelow files place).length
  children : List.Forall₂ (fun next child => Shows summarize files (place ++ [next]) child)
    (nextNames files place) row.children

theorem shows_rows (summarize : List SourceFile → Summary) (depth : Nat) (place : List String)
    (hdepth : ∀ f ∈ files, place <+: segments f.path →
      (segments f.path).length ≤ place.length + depth) :
    List.Forall₂ (fun next row => Shows summarize files (place ++ [next]) row ∧
        ∀ r ∈ row.flatten, r.kind ≠ .file → ∃ q, Branches summarize files q r)
      (nextNames files place)
      (rows summarize depth (place.length + 1) ("/".intercalate place) (itemsAt files place)) := by
  refine rows_induction (P := fun place row => Shows summarize files place row ∧
    ∀ r ∈ row.flatten, r.kind ≠ .file → ∃ q, Branches summarize files q r) ?_ ?_ depth place hdepth
  · intro place f _ hf
    refine ⟨⟨hf.symm, rfl⟩, fun r hr hkind => ?_⟩
    rw [flatten_eq, List.mem_cons] at hr
    rcases hr with rfl | hr
    · exact absurd rfl hkind
    · cases hr
  · intro place name children _ hlong hchildren
    have hshows : Shows summarize files place (mk place.length name ("/".intercalate place) .folder
        (filesBelow files place) (summarize (filesBelow files place)) children) := ⟨rfl, rfl⟩
    refine ⟨hshows, fun r hr hkind => ?_⟩
    rw [flatten_eq, List.mem_cons] at hr
    rcases hr with rfl | hr
    · exact ⟨place, ⟨hshows, rfl, Or.inr hlong, hchildren.imp fun _ _ h => h.1⟩⟩
    · obtain ⟨child, hchild, hr⟩ := List.mem_flatMap.mp hr
      obtain ⟨next, -, hbelow⟩ := Result.exists_mem_left hchildren hchild
      exact hbelow.2 r hr hkind

/-! ## Files with a row of their own -/

/-- The file is the only one at its place and below it. -/
def Listed (files : List SourceFile) (f : SourceFile) : Prop :=
  segments f.path ≠ [] ∧ (filesBelow files (segments f.path)).length = 1

instance (files : List SourceFile) (f : SourceFile) : Decidable (Listed files f) :=
  inferInstanceAs (Decidable (_ ∧ _))

/-- The files below a place that have a row of their own, each as the files of this row. -/
def listedBelow (files : List SourceFile) (place : List String) : List (List SourceFile) :=
  ((filesBelow files place).filter fun f => decide (Listed files f)).map ([·])

theorem listed_of_filesBelow_eq {place : List String} {f : SourceFile} (hne : place ≠ [])
    (h : filesBelow files place = [f]) : Listed files f := by
  have hf : f ∈ filesBelow files place := by rw [h]; exact List.mem_singleton_self f
  obtain ⟨hmem, hplace⟩ := mem_filesBelow.mp hf
  refine ⟨fun hnil => hne (List.prefix_nil.mp (hnil ▸ hplace)), ?_⟩
  -- what is below the file is below the place
  have hsub : (filesBelow files (segments f.path)).Sublist (filesBelow files place) := by
    refine List.monotone_filter_right files fun g hg => ?_
    exact decide_eq_true (hplace.trans (of_decide_eq_true hg))
  have hself : f ∈ filesBelow files (segments f.path) := mem_filesBelow.mpr ⟨hmem, List.prefix_rfl⟩
  have hpos := List.length_pos_of_mem hself
  have hle := hsub.length_le
  rw [h, List.length_singleton] at hle
  omega

theorem not_listed_of_mem_filesAt {place : List String} {f : SourceFile}
    (hseveral : place = [] ∨ 2 ≤ (filesBelow files place).length) (hf : f ∈ filesAt files place) :
    ¬ Listed files f := by
  rintro ⟨hne, hone⟩
  rw [(mem_filesAt.mp hf).2] at hne hone
  rcases hseveral with hnil | hlong
  · exact hne hnil
  · omega

/-- Below a place have a row: those that have one below the places one name further. -/
theorem listedBelow_perm {place : List String}
    (hseveral : place = [] ∨ 2 ≤ (filesBelow files place).length) :
    (listedBelow files place).Perm
      ((nextNames files place).flatMap fun next => listedBelow files (place ++ [next])) := by
  have hperm := ((filesBelow_perm files place).filter fun f => decide (Listed files f)).map ([·])
  have hnone : (filesAt files place).filter (fun f => decide (Listed files f)) = [] := by
    rw [List.filter_eq_nil_iff]
    intro f hf
    rw [decide_eq_true_eq]
    exact not_listed_of_mem_filesAt hseveral hf
  rw [List.filter_append, hnone, List.append_nil, List.filter_flatMap, List.map_flatMap] at hperm
  exact hperm

theorem fileRows_eq (row : SummaryRow) : row.fileRows =
    (if row.kind = .file then [row] else []) ++ row.children.flatMap fileRows := by
  unfold fileRows
  rw [flatten_eq, List.filter_cons, List.filter_flatMap]
  by_cases hkind : row.kind = .file <;> simp [hkind]

theorem flatMap_perm_of_forall₂ {α β γ : Type} {f : α → List γ} {g : β → List γ} {as : List α}
    {bs : List β} (h : List.Forall₂ (fun a b => (g b).Perm (f a)) as bs) :
    (bs.flatMap g).Perm (as.flatMap f) := by
  induction h with
  | nil => exact .nil
  | cons hfirst _ ih =>
    rw [List.flatMap_cons, List.flatMap_cons]
    exact hfirst.append ih

/-- The files of the rows of single files below a list of rows, from those of each row. -/
theorem flatMap_fileRows_perm {place : List String} {children : List SummaryRow}
    (hseveral : place = [] ∨ 2 ≤ (filesBelow files place).length)
    (h : List.Forall₂ (fun next (child : SummaryRow) =>
        (child.fileRows.map (·.files)).Perm (listedBelow files (place ++ [next])))
      (nextNames files place) children) :
    ((children.flatMap fileRows).map (·.files)).Perm (listedBelow files place) := by
  rw [List.map_flatMap]
  exact (flatMap_perm_of_forall₂ h).trans (listedBelow_perm hseveral).symm

theorem listed_rows (summarize : List SourceFile → Summary) (depth : Nat) (place : List String)
    (hdepth : ∀ f ∈ files, place <+: segments f.path →
      (segments f.path).length ≤ place.length + depth) :
    List.Forall₂ (fun next row =>
        (row.fileRows.map (·.files)).Perm (listedBelow files (place ++ [next])))
      (nextNames files place)
      (rows summarize depth (place.length + 1) ("/".intercalate place) (itemsAt files place)) := by
  refine rows_induction (P := fun place row =>
    (row.fileRows.map (·.files)).Perm (listedBelow files place)) ?_ ?_ depth place hdepth
  · intro place f hne hf
    rw [listedBelow, hf, List.filter_singleton]
    simp [listed_of_filesBelow_eq hne hf, fileRows_eq, kind, children, SummaryRow.files]
  · intro place name children _ hlong hchildren
    rw [fileRows_eq]
    exact flatMap_fileRows_perm (Or.inr hlong) hchildren

end Rows

/-! ## The whole tree -/

section Tree

variable {threshold : Threshold} {policy : HitPolicy} {hits : Hits} {files : List SourceFile}

theorem le_foldl_max {ns : List Nat} {start : Nat} :
    start ≤ ns.foldl max start ∧ ∀ n ∈ ns, n ≤ ns.foldl max start := by
  induction ns generalizing start with
  | nil => simp
  | cons n ns ih =>
    obtain ⟨hstart, hall⟩ := @ih (max start n)
    rw [List.foldl_cons, List.forall_mem_cons]
    exact ⟨by omega, by omega, hall⟩

/-- The rows below the root are those at the place without names, and deep enough. -/
theorem exists_children_tree (threshold : Threshold) (policy : HitPolicy) (hits : Hits)
    (files : List SourceFile) :
    ∃ depth, (∀ f ∈ files, [] <+: segments f.path → (segments f.path).length ≤ 0 + depth) ∧
      tree threshold policy hits files = mk 0 rootName rootName .root files
        (Summary.ofFiles threshold policy hits files)
        (rows (Summary.ofFiles threshold policy hits) depth 1 ("/".intercalate [])
          (itemsAt files [])) := by
  have hitems : itemsAt files [] = files.map fun f => Item.mk (segments f.path) f := by
    rw [itemsAt, filesBelow_nil]
    rfl
  refine ⟨((itemsAt files []).map fun i => i.segments.length).foldl max 0, fun f hf _ => ?_, ?_⟩
  · rw [Nat.zero_add]
    refine le_foldl_max.2 _ (List.mem_map.mpr ⟨⟨segments f.path, f⟩, ?_, rfl⟩)
    rw [hitems]
    exact List.mem_map_of_mem hf
  · rw [hitems]
    rfl

theorem branches_tree {row : SummaryRow} (hrow : row ∈ (tree threshold policy hits files).flatten)
    (hkind : row.kind ≠ .file) :
    ∃ place, Branches (Summary.ofFiles threshold policy hits) files place row := by
  obtain ⟨depth, hdepth, htree⟩ := exists_children_tree threshold policy hits files
  have hrows := shows_rows (Summary.ofFiles threshold policy hits) depth [] hdepth
  rw [htree, flatten_eq, List.mem_cons] at hrow
  rcases hrow with rfl | hrow
  · exact ⟨[], ⟨⟨(filesBelow_nil files).symm, rfl⟩, rfl, Or.inl rfl, hrows.imp fun _ _ h => h.1⟩⟩
  · obtain ⟨child, hchild, hrow⟩ := List.mem_flatMap.mp hrow
    obtain ⟨next, -, hbelow⟩ := Result.exists_mem_left hrows hchild
    exact hbelow.2 row hrow hkind

/-- A row counts what its children count, and the files that end at its place. -/
theorem Branches.tally_eq {place : List String} {row : SummaryRow}
    (h : Branches (Summary.ofFiles threshold policy hits) files place row) :
    row.tally = (Tally.sum (row.children.map tally)).add
      (Tally.ofFiles policy hits (filesAt files place)) := by
  have hchildren : row.children.map tally = (nextNames files place).map fun next =>
      Tally.ofFiles policy hits (filesBelow files (place ++ [next])) := by
    rw [← List.forall₂_eq_eq_eq, List.forall₂_map_left_iff, List.forall₂_map_right_iff]
    refine h.children.flip.imp fun child next hchild => ?_
    rw [tally, hchild.summary_eq, hchild.files_eq, Summary.tally_ofFiles]
  rw [tally, h.summary_eq, h.files_eq, Summary.tally_ofFiles,
    Tally.ofFiles_perm (filesBelow_perm files place), Tally.ofFiles_append, Tally.ofFiles_flatMap,
    hchildren]

theorem Branches.ended_eq {summarize : List SourceFile → Summary} {place : List String}
    {row : SummaryRow} (h : Branches summarize files place row) :
    row.ended = filesAt files place := by
  rw [ended, h.files_eq, h.place_eq, filesBelow, List.filter_filter]
  refine List.filter_congr fun f _ => ?_
  by_cases hbelow : place <+: segments f.path
  · have hnames : ∀ name ∈ segments f.path, name ≠ "" := fun _ => ne_empty_of_mem_segments
    simp [hbelow, intercalate_eq_iff hbelow hnames]
  · have hne : segments f.path ≠ place := fun heq => hbelow (heq ▸ List.prefix_rfl)
    simp [hbelow, hne]

/-- The rows of single files are those of the files with a row of their own. -/
theorem fileRows_tree (threshold : Threshold) (policy : HitPolicy) (hits : Hits)
    (files : List SourceFile) :
    ((tree threshold policy hits files).fileRows.map (·.files)).Perm
      ((files.filter fun f => decide (Listed files f)).map ([·])) := by
  obtain ⟨depth, hdepth, htree⟩ := exists_children_tree threshold policy hits files
  have hrows := flatMap_fileRows_perm (Or.inl rfl)
    (listed_rows (Summary.ofFiles threshold policy hits) depth [] hdepth)
  rw [listedBelow, filesBelow_nil] at hrows
  rw [htree, fileRows_eq]
  exact hrows

theorem tally_of_flatten {row : SummaryRow}
    (hrow : row ∈ (tree threshold policy hits files).flatten) (hkind : row.kind ≠ .file) :
    row.tally = (Tally.sum (row.children.map tally)).add (Tally.ofFiles policy hits row.ended) := by
  obtain ⟨place, hplace⟩ := branches_tree hrow hkind
  rw [hplace.tally_eq, hplace.ended_eq]

theorem not_listed_of_mem_ended {row : SummaryRow} {f : SourceFile}
    (hrow : row ∈ (tree threshold policy hits files).flatten) (hkind : row.kind ≠ .file)
    (hf : f ∈ row.ended) : ¬ Listed files f := by
  obtain ⟨place, hplace⟩ := branches_tree hrow hkind
  rw [hplace.ended_eq] at hf
  exact not_listed_of_mem_filesAt hplace.several hf

/-- Each file has one row, and no row counts anything that its children do not count. -/
structure Complete (t : SummaryRow) (files : List SourceFile) : Prop where
  listed : (t.fileRows.map (·.files)).Perm (files.map ([·]))
  addsUp : ∀ row ∈ t.flatten, row.kind ≠ .file → row.tally = Tally.sum (row.children.map tally)

theorem complete_iff : Complete (tree threshold policy hits files) files ↔
    ∀ f ∈ files, Listed files f := by
  have hrows := fileRows_tree threshold policy hits files
  constructor
  · intro h
    have hlength := (hrows.symm.trans h.listed).length_eq
    rw [List.length_map, List.length_map, List.length_filter_eq_length_iff] at hlength
    exact fun f hf => of_decide_eq_true (hlength f hf)
  · intro h
    have hall : (files.filter fun f => decide (Listed files f)) = files :=
      List.filter_eq_self.mpr fun f hf => decide_eq_true (h f hf)
    refine ⟨by rwa [hall] at hrows, fun row hrow hkind => ?_⟩
    have hended : row.ended = [] := by
      refine List.eq_nil_iff_forall_not_mem.mpr fun f hf => ?_
      obtain ⟨place, hplace⟩ := branches_tree hrow hkind
      have hmem : f ∈ files := (mem_filesAt.mp (hplace.ended_eq ▸ hf)).1
      exact not_listed_of_mem_ended hrow hkind hf (h f hmem)
    rw [tally_of_flatten hrow hkind, hended, Tally.ofFiles_nil, Tally.add_zero]

/-- What the tree lists and counts. The rows of single files are those of the files that are the
only ones at their places and below. Every other row counts what its children count and what
ends at the row itself, which has no row of its own; nothing is left out exactly if every file
is the only one at its place and below it. -/
theorem tree_lists (threshold : Threshold) (policy : HitPolicy) (hits : Hits)
    (files : List SourceFile) :
    ((tree threshold policy hits files).fileRows.map (·.files)).Perm
        ((files.filter fun f => decide (Listed files f)).map ([·])) ∧
      (∀ row ∈ (tree threshold policy hits files).flatten, row.kind ≠ .file →
        row.tally =
            (Tally.sum (row.children.map tally)).add (Tally.ofFiles policy hits row.ended) ∧
          ∀ f ∈ row.ended, ¬ Listed files f) ∧
      (Complete (tree threshold policy hits files) files ↔ ∀ f ∈ files, Listed files f) :=
  ⟨fileRows_tree threshold policy hits files,
    fun _ hrow hkind => ⟨tally_of_flatten hrow hkind,
      fun _ hf => not_listed_of_mem_ended hrow hkind hf⟩,
    complete_iff⟩

/-- Two files whose paths differ in the mark between the names only, and a third one. -/
def twins : List SourceFile :=
  let method : MethodInfo := ⟨"App", "Run", "App::Run"⟩
  [⟨"src/App.cs", [⟨1, 0, 10, 9, 10, 30, method, "nop", []⟩]⟩,
    ⟨"src\\App.cs", [⟨2, 0, 12, 9, 13, 30, method, "nop", []⟩]⟩,
    ⟨"lib/Util.cs", [⟨3, 0, 5, 9, 5, 30, method, "nop", []⟩]⟩]

theorem tree_lists_twins :
    ∃ row ∈ (tree .standard .independent (.ofList [(1, 1)]) twins).flatten, row.kind ≠ .file ∧
      row.ended = twins.take 2 ∧
      row.tally = (Tally.sum (row.children.map tally)).add
        (Tally.ofFiles .independent (.ofList [(1, 1)]) row.ended) := by
  have hrow : ∃ row ∈ (tree .standard .independent (.ofList [(1, 1)]) twins).flatten,
      row.kind ≠ .file ∧ row.ended = twins.take 2 := by decide +kernel
  obtain ⟨row, hmem, hkind, hended⟩ := hrow
  obtain ⟨-, hcounts, -⟩ := tree_lists .standard .independent (.ofList [(1, 1)]) twins
  exact ⟨row, hmem, hkind, hended, (hcounts row hmem hkind).1⟩

/-- Files with paths of their own, none of them empty, can be missing from the tree. -/
theorem twins_not_complete :
    (twins.map (·.path)).Nodup ∧ (∀ f ∈ twins, segments f.path ≠ []) ∧
      ¬ Complete (tree .standard .independent (.ofList [(1, 1)]) twins) twins := by
  refine ⟨by decide, by decide +kernel, fun h => ?_⟩
  have hlisted : ¬ ∀ f ∈ twins, Listed twins f := by decide +kernel
  exact hlisted (complete_iff.mp h)

end Tree

end CilCoverage.SummaryRow
