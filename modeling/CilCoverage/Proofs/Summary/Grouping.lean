/-
  Files by the names along their paths.

  Grouping yields the names that come next, each once and in order of first
  appearance, and with each the items that go on with it (`group_eq`). In terms
  of all files, what is below a place is grouped into what is below the places
  one name further (`group_itemsAt`); the files that end at the place itself
  are in no group (`below_perm`).
-/
import CilCoverage.SummaryTree
import CilCoverage.Proofs.Distinct
import Mathlib.Data.List.Perm.Basic

namespace CilCoverage.SummaryRow

/-! ## Groups of items -/

/-- The names that come next, in order of first appearance. -/
def heads (items : List Item) : List String := (items.filterMap (·.segments.head?)).eraseDups

/-- What is left of an item after a name, if it goes on with this name. -/
def Item.after? (name : String) : Item → Option Item
  | ⟨[], _⟩ => none
  | ⟨other :: rest, file⟩ => if other = name then some ⟨rest, file⟩ else none

/-- The items that go on with a name, without it. -/
def tails (name : String) (items : List Item) : List Item := items.filterMap (Item.after? name)

theorem nodup_heads (items : List Item) : (heads items).Nodup := nodup_eraseDups _

/-- An item joins the group of its name, or opens it behind the others. -/
theorem insertItem_map {names : List String} (hnodup : names.Nodup) (members : String → List Item)
    (name : String) (item : Item) :
    insertItem name item (names.map fun n => (n, members n)) =
      if name ∈ names then
        names.map fun n => (n, if n = name then members n ++ [item] else members n)
      else (names.map fun n => (n, members n)) ++ [(name, [item])] := by
  induction names with
  | nil => rfl
  | cons first names ih =>
    obtain ⟨hfirst, hnodup⟩ := List.nodup_cons.mp hnodup
    rw [List.map_cons, insertItem]
    by_cases heq : first = name
    · subst heq
      have hrest : (names.map fun n => (n, members n)) =
          names.map fun n => (n, if n = first then members n ++ [item] else members n) := by
        refine List.map_congr_left fun n hn => ?_
        rw [if_neg fun h : n = first => hfirst (h ▸ hn)]
      rw [if_pos rfl, if_pos List.mem_cons_self, List.map_cons, if_pos rfl, ← hrest]
    · rw [if_neg heq, ih hnodup]
      have hmem : name ∈ first :: names ↔ name ∈ names := by
        rw [List.mem_cons, or_iff_right fun h : name = first => heq h.symm]
      simp only [hmem]
      split
      · rw [List.map_cons, if_neg heq]
      · rfl

theorem heads_snoc (items : List Item) (item : Item) :
    heads (items ++ [item]) = match item.segments with
      | [] => heads items
      | name :: _ => if name ∈ heads items then heads items else heads items ++ [name] := by
  unfold heads
  rw [List.filterMap_append]
  rcases item with ⟨segments, file⟩
  cases segments with
  | nil =>
    have hlast : [(⟨[], file⟩ : Item)].filterMap (·.segments.head?) = [] := rfl
    rw [hlast, List.append_nil]
  | cons name rest =>
    have hlast : [(⟨name :: rest, file⟩ : Item)].filterMap (·.segments.head?) = [name] := rfl
    rw [hlast, eraseDups_snoc]
    simp only [List.mem_eraseDups]

theorem tails_snoc (name : String) (items : List Item) (item : Item) :
    tails name (items ++ [item]) = tails name items ++ (item.after? name).toList := by
  rw [tails, List.filterMap_append]
  cases h : item.after? name <;> simp [tails, h]

theorem tails_eq_nil {name : String} {items : List Item} (h : name ∉ heads items) :
    tails name items = [] := by
  rw [tails, List.filterMap_eq_nil_iff]
  rintro ⟨segments, file⟩ hitem
  cases segments with
  | nil => rfl
  | cons other rest =>
    refine if_neg fun heq : other = name => h ?_
    exact List.mem_eraseDups.mpr (List.mem_filterMap.mpr ⟨_, hitem, congrArg some heq⟩)

/-- Grouping yields the next names in order of first appearance, each with what follows it. -/
theorem group_eq (items : List Item) :
    group items = (heads items).map fun name => (name, tails name items) := by
  induction items using List.reverseRecOn with
  | nil => rfl
  | append_singleton items item ih =>
    rw [group, List.foldl_append]
    change (match item.segments with
      | [] => group items
      | name :: rest => insertItem name ⟨rest, item.file⟩ (group items)) = _
    rw [ih, heads_snoc]
    rcases item with ⟨segments, file⟩
    cases segments with
    | nil =>
      refine List.map_congr_left fun n _ => ?_
      rw [tails_snoc]
      simp [Item.after?]
    | cons name rest =>
      dsimp only
      rw [insertItem_map (nodup_heads items)]
      -- the item goes on with `name`, so no other group changes
      have hafter : ∀ n, tails n (items ++ [⟨name :: rest, file⟩]) =
          if n = name then tails n items ++ [⟨rest, file⟩] else tails n items := by
        intro n
        rw [tails_snoc, Item.after?]
        by_cases heq : n = name
        · simp [heq]
        · simp [heq, Ne.symm heq]
      split
      · exact List.map_congr_left fun n _ => by rw [hafter]
      · next hnew =>
        rw [List.map_append, List.map_singleton, hafter, if_pos rfl, tails_eq_nil hnew]
        congr 1
        refine List.map_congr_left fun n hn => ?_
        rw [hafter, if_neg fun h : n = name => hnew (h ▸ hn)]

/-! ## Places -/

/-- The files whose paths begin with the names of a place. -/
def filesBelow (files : List SourceFile) (place : List String) : List SourceFile :=
  files.filter fun f => decide (place <+: segments f.path)

/-- The files whose paths have the names of a place, and no more. -/
def filesAt (files : List SourceFile) (place : List String) : List SourceFile :=
  files.filter fun f => decide (segments f.path = place)

/-- The files below a place, with the names after it. -/
def itemsAt (files : List SourceFile) (place : List String) : List Item :=
  (filesBelow files place).map fun f => ⟨(segments f.path).drop place.length, f⟩

/-- The names that come next at a place. -/
def nextNames (files : List SourceFile) (place : List String) : List String :=
  heads (itemsAt files place)

section Places

variable {files : List SourceFile} {place : List String} {name : String} {f : SourceFile}

@[simp] theorem filesBelow_nil (files : List SourceFile) : filesBelow files [] = files := by
  simp [filesBelow]

theorem mem_filesBelow : f ∈ filesBelow files place ↔ f ∈ files ∧ place <+: segments f.path := by
  simp [filesBelow]

theorem mem_filesAt : f ∈ filesAt files place ↔ f ∈ files ∧ segments f.path = place := by
  simp [filesAt]

theorem map_file_itemsAt (files : List SourceFile) (place : List String) :
    (itemsAt files place).map (·.file) = filesBelow files place := by
  rw [itemsAt, List.map_map]
  exact List.map_id _

/-- A path goes on with a name if the name comes next. -/
theorem snoc_prefix_iff {names : List String} :
    place ++ [name] <+: names ↔ place <+: names ∧ (names.drop place.length).head? = some name := by
  constructor
  · rintro ⟨rest, rfl⟩
    rw [List.append_assoc]
    exact ⟨List.prefix_append _ _, by rw [List.drop_left]; rfl⟩
  · rintro ⟨⟨rest, rfl⟩, hhead⟩
    rw [List.drop_left] at hhead
    obtain ⟨more, rfl⟩ := List.head?_eq_some_iff.mp hhead
    exact ⟨more, by rw [List.append_assoc]; rfl⟩

theorem after?_eq (name : String) (item : Item) : item.after? name =
    if item.segments.head? = some name then some ⟨item.segments.tail, item.file⟩ else none := by
  rcases item with ⟨segments, file⟩
  cases segments with
  | nil => rfl
  | cons other rest => simp [Item.after?]

/-- What goes on with a name at a place is what is below the place one name further. -/
theorem tails_itemsAt (files : List SourceFile) (place : List String) (name : String) :
    tails name (itemsAt files place) = itemsAt files (place ++ [name]) := by
  unfold tails itemsAt filesBelow
  rw [List.filterMap_map, List.filterMap_filter, ← List.filterMap_eq_map, List.filterMap_filter]
  refine List.filterMap_congr fun f _ => ?_
  simp only [Function.comp, after?_eq, decide_eq_true_eq, snoc_prefix_iff, List.tail_drop,
    List.length_append, List.length_singleton]
  by_cases hplace : place <+: segments f.path <;> simp [hplace]

/-- Grouping the files below a place yields the places one name further. -/
theorem group_itemsAt (files : List SourceFile) (place : List String) :
    group (itemsAt files place) =
      (nextNames files place).map fun name => (name, itemsAt files (place ++ [name])) := by
  rw [group_eq]
  exact List.map_congr_left fun name _ => by rw [tails_itemsAt]

theorem nodup_nextNames (files : List SourceFile) (place : List String) :
    (nextNames files place).Nodup :=
  nodup_heads _

/-- A name comes next at a place if there is a file below the place one name further. -/
theorem mem_nextNames :
    name ∈ nextNames files place ↔ ∃ f ∈ files, place ++ [name] <+: segments f.path := by
  simp only [nextNames, heads, itemsAt, List.mem_eraseDups, List.mem_filterMap, List.mem_map,
    mem_filesBelow, snoc_prefix_iff]
  constructor
  · rintro ⟨_, ⟨f, ⟨hf, hplace⟩, rfl⟩, hhead⟩
    exact ⟨f, hf, hplace, hhead⟩
  · rintro ⟨f, hf, hplace, hhead⟩
    exact ⟨_, ⟨f, ⟨hf, hplace⟩, rfl⟩, hhead⟩

theorem filesBelow_ne_nil (h : name ∈ nextNames files place) :
    filesBelow files (place ++ [name]) ≠ [] := by
  obtain ⟨f, hf, hplace⟩ := mem_nextNames.mp h
  exact List.ne_nil_of_mem (mem_filesBelow.mpr ⟨hf, hplace⟩)

end Places

/-! ## What is in the groups -/

/-- A file below a place goes on from there unless it ends there. -/
theorem exists_nextName_iff {files : List SourceFile} {place : List String} {f : SourceFile}
    (hf : f ∈ files) : (∃ name ∈ nextNames files place, place ++ [name] <+: segments f.path) ↔
      place <+: segments f.path ∧ segments f.path ≠ place := by
  constructor
  · rintro ⟨name, -, hnext⟩
    refine ⟨(snoc_prefix_iff.mp hnext).1, fun heq => ?_⟩
    have hlength := hnext.length_le
    rw [heq, List.length_append, List.length_singleton] at hlength
    omega
  · rintro ⟨⟨rest, hrest⟩, hne⟩
    cases rest with
    | nil => exact absurd (hrest.symm.trans (List.append_nil _)) hne
    | cons name rest =>
      have hnext : place ++ [name] <+: segments f.path :=
        ⟨rest, by rw [List.append_assoc]; exact hrest⟩
      exact ⟨name, mem_nextNames.mpr ⟨f, hf, hnext⟩, hnext⟩

/-- What is below a place is below one of the places one name further, or ends there. -/
theorem filesBelow_perm (files : List SourceFile) (place : List String) :
    (filesBelow files place).Perm
      (((nextNames files place).flatMap fun name => filesBelow files (place ++ [name])) ++
        filesAt files place) := by
  let ends : SourceFile → Bool := fun f => decide (segments f.path = place)
  have hunique : ∀ (j k : String) (f : SourceFile),
      decide (place ++ [j] <+: segments f.path) = true →
        decide (place ++ [k] <+: segments f.path) = true → j = k := by
    intro j k f hj hk
    rw [decide_eq_true_eq, snoc_prefix_iff] at hj hk
    exact Option.some.inj (hj.2.symm.trans hk.2)
  have hgroups := flatMap_filter_perm (fun name (f : SourceFile) =>
    decide (place ++ [name] <+: segments f.path)) hunique (nodup_nextNames files place) files
  have hends : (filesBelow files place).filter ends = filesAt files place := by
    rw [filesBelow, List.filter_filter]
    refine List.filter_congr fun f _ => ?_
    by_cases h : segments f.path = place <;> simp [ends, h]
  have hgoes : ((filesBelow files place).filter fun f => !ends f) = files.filter fun f =>
      (nextNames files place).any fun name => decide (place ++ [name] <+: segments f.path) := by
    rw [filesBelow, List.filter_filter]
    refine List.filter_congr fun f hf => ?_
    rw [Bool.eq_iff_iff, List.any_eq_true]
    simp only [decide_eq_true_eq, exists_nextName_iff hf]
    simp [ends, and_comm]
  have hparts := List.filter_append_perm ends (filesBelow files place)
  rw [hends, hgoes] at hparts
  exact hparts.symm.trans (List.perm_append_comm.trans (hgroups.symm.append_right _))

end CilCoverage.SummaryRow
