/-
  Maps with ordered keys, kept as the list of their entries by ascending key.

  Equal contents are equal maps: the order of the entries is part of the type,
  so a map is determined by its list, and the list by what is found for each
  key (`ext_find?`). Changing the entry of one key (`find?_upsert_self`) leaves
  the others alone (`find?_upsert_ne`), and so does removing it.
-/

namespace CilCoverage

/-- A finite map, by ascending keys. -/
structure OrderedMap (κ α : Type) [Ord κ] where
  entries : List (κ × α)
  sorted : entries.Pairwise fun a b => compare a.1 b.1 = .lt

namespace OrderedMap

variable {κ α : Type} [Ord κ]

/-- Sets the entry of `k` to what `f` makes of the present one. -/
def upsertList (k : κ) (f : Option α → α) : List (κ × α) → List (κ × α)
  | [] => [(k, f none)]
  | (k', a) :: rest =>
    match compare k k' with
    | .lt => (k, f none) :: (k', a) :: rest
    | .eq => (k, f (some a)) :: rest
    | .gt => (k', a) :: upsertList k f rest

theorem mem_upsertList {k : κ} {f : Option α → α} {e : κ × α} {l : List (κ × α)}
    (h : e ∈ upsertList k f l) : e.1 = k ∨ e ∈ l := by
  induction l with
  | nil =>
    simp only [upsertList, List.mem_singleton] at h
    exact .inl (h ▸ rfl)
  | cons hd rest ih =>
    obtain ⟨k', a⟩ := hd
    simp only [upsertList] at h
    split at h
    · rcases List.mem_cons.mp h with h | h
      · exact .inl (h ▸ rfl)
      · exact .inr h
    · rcases List.mem_cons.mp h with h | h
      · exact .inl (h ▸ rfl)
      · exact .inr (List.mem_cons_of_mem _ h)
    · rcases List.mem_cons.mp h with h | h
      · exact .inr (h ▸ List.mem_cons_self)
      · rcases ih h with h | h
        · exact .inl h
        · exact .inr (List.mem_cons_of_mem _ h)

variable [Std.TransOrd κ] [Std.LawfulEqOrd κ]

theorem upsertList_sorted (k : κ) (f : Option α → α) {l : List (κ × α)}
    (h : l.Pairwise fun a b => compare a.1 b.1 = .lt) :
    (upsertList k f l).Pairwise fun a b => compare a.1 b.1 = .lt := by
  induction l with
  | nil => simp [upsertList]
  | cons hd rest ih =>
    obtain ⟨k', a⟩ := hd
    obtain ⟨hhd, hrest⟩ := List.pairwise_cons.mp h
    simp only [upsertList]
    split
    · next hk =>
      refine List.pairwise_cons.mpr ⟨?_, h⟩
      intro b hb
      rcases List.mem_cons.mp hb with hb | hb
      · exact hb ▸ hk
      · exact Std.TransCmp.lt_trans hk (hhd b hb)
    · next hk =>
      have : k = k' := Std.LawfulEqOrd.eq_of_compare hk
      subst this
      exact List.pairwise_cons.mpr ⟨hhd, hrest⟩
    · next hk =>
      refine List.pairwise_cons.mpr ⟨?_, ih hrest⟩
      intro b hb
      rcases mem_upsertList hb with hb | hb
      · show compare k' b.1 = .lt
        rw [hb]
        exact Std.OrientedCmp.gt_iff_lt.mp hk
      · exact hhd b hb

/-- The map without entries. -/
def empty : OrderedMap κ α := ⟨[], .nil⟩

/-- Sets the entry of `k` to what `f` makes of the present one. -/
def upsert (m : OrderedMap κ α) (k : κ) (f : Option α → α) : OrderedMap κ α :=
  ⟨upsertList k f m.entries, upsertList_sorted k f m.sorted⟩

/-- Sets the entry of `k`. -/
def insert (m : OrderedMap κ α) (k : κ) (a : α) : OrderedMap κ α :=
  m.upsert k fun _ => a

/-- Removes the entry of `k`. -/
def erase (m : OrderedMap κ α) (k : κ) : OrderedMap κ α :=
  ⟨m.entries.filter fun e => compare k e.1 != .eq, m.sorted.filter _⟩

/-- The entry of `k` in a list of entries. -/
def findList? (k : κ) : List (κ × α) → Option α
  | [] => none
  | (k', a) :: rest => if compare k k' = .eq then some a else findList? k rest

/-- The entry of `k`. -/
def find? (m : OrderedMap κ α) (k : κ) : Option α := findList? k m.entries

/-- There is an entry of `k`. -/
def contains (m : OrderedMap κ α) (k : κ) : Bool := (m.find? k).isSome

/-- The keys in ascending order. -/
def keys (m : OrderedMap κ α) : List κ := m.entries.map (·.1)

/-- The values by ascending key. -/
def values (m : OrderedMap κ α) : List α := m.entries.map (·.2)

omit [Std.TransOrd κ] [Std.LawfulEqOrd κ] in
theorem ext {m n : OrderedMap κ α} (h : m.entries = n.entries) : m = n := by
  cases m
  cases n
  cases h
  rfl

instance [DecidableEq κ] [DecidableEq α] : DecidableEq (OrderedMap κ α) := fun m n =>
  decidable_of_iff (m.entries = n.entries) ⟨ext, congrArg entries⟩

omit [Std.TransOrd κ] [Std.LawfulEqOrd κ] in
theorem findList?_eq_none {k : κ} {l : List (κ × α)}
    (h : ∀ e ∈ l, compare k e.1 ≠ .eq) : findList? k l = none := by
  induction l with
  | nil => rfl
  | cons hd rest ih =>
    rw [findList?, if_neg (h hd List.mem_cons_self)]
    exact ih fun e he => h e (List.mem_cons_of_mem _ he)

theorem findList?_upsertList_self (k : κ) (f : Option α → α) {l : List (κ × α)}
    (h : l.Pairwise fun a b => compare a.1 b.1 = .lt) :
    findList? k (upsertList k f l) = some (f (findList? k l)) := by
  induction l with
  | nil => simp [upsertList, findList?]
  | cons hd rest ih =>
    obtain ⟨k', a⟩ := hd
    obtain ⟨hhd, hrest⟩ := List.pairwise_cons.mp h
    simp only [upsertList]
    split
    · next hk =>
      have hnone : findList? k ((k', a) :: rest) = none := by
        refine findList?_eq_none fun e he => ?_
        rcases List.mem_cons.mp he with he | he
        · rw [he, hk]
          decide
        · rw [Std.TransCmp.lt_trans hk (hhd e he)]
          decide
      rw [hnone, findList?, if_pos Std.ReflCmp.compare_self]
    · next hk =>
      rw [findList?, if_pos Std.ReflCmp.compare_self, findList?, if_pos hk]
    · next hk =>
      have hne : ¬ compare k k' = .eq := by rw [hk]; decide
      rw [findList?, if_neg hne, findList?, if_neg hne, ih hrest]

omit [Std.TransOrd κ] in
theorem findList?_upsertList_ne {k j : κ} (f : Option α → α) (hj : j ≠ k) (l : List (κ × α)) :
    findList? j (upsertList k f l) = findList? j l := by
  have hjk : ¬ compare j k = .eq := fun h => hj (Std.LawfulEqOrd.eq_of_compare h)
  induction l with
  | nil => simp [upsertList, findList?, hjk]
  | cons hd rest ih =>
    obtain ⟨k', a⟩ := hd
    simp only [upsertList]
    split
    · rw [findList?, if_neg hjk]
    · next hk =>
      have : k = k' := Std.LawfulEqOrd.eq_of_compare hk
      subst this
      rw [findList?, if_neg hjk, findList?, if_neg hjk]
    · rw [findList?, findList?, ih]

theorem find?_upsert_self (m : OrderedMap κ α) (k : κ) (f : Option α → α) :
    (m.upsert k f).find? k = some (f (m.find? k)) :=
  findList?_upsertList_self k f m.sorted

theorem find?_upsert_ne (m : OrderedMap κ α) {k j : κ} (f : Option α → α) (h : j ≠ k) :
    (m.upsert k f).find? j = m.find? j :=
  findList?_upsertList_ne f h m.entries

theorem find?_insert_self (m : OrderedMap κ α) (k : κ) (a : α) :
    (m.insert k a).find? k = some a :=
  m.find?_upsert_self k fun _ => a

theorem find?_insert_ne (m : OrderedMap κ α) {k j : κ} (a : α) (h : j ≠ k) :
    (m.insert k a).find? j = m.find? j :=
  m.find?_upsert_ne (fun _ => a) h

/-! ## Entries -/

omit [Std.TransOrd κ] in
theorem mem_of_findList? {k : κ} {a : α} {l : List (κ × α)} (h : findList? k l = some a) :
    (k, a) ∈ l := by
  induction l with
  | nil => simp [findList?] at h
  | cons hd rest ih =>
    obtain ⟨k', b⟩ := hd
    rw [findList?] at h
    split at h
    · next hk =>
      cases h
      rw [Std.LawfulEqOrd.eq_of_compare hk]
      exact List.mem_cons_self
    · exact List.mem_cons_of_mem _ (ih h)

theorem findList?_of_mem {k : κ} {a : α} {l : List (κ × α)}
    (hsorted : l.Pairwise fun a b => compare a.1 b.1 = .lt) (h : (k, a) ∈ l) :
    findList? k l = some a := by
  induction l with
  | nil => simp at h
  | cons hd rest ih =>
    obtain ⟨k', b⟩ := hd
    obtain ⟨hhd, hrest⟩ := List.pairwise_cons.mp hsorted
    rcases List.mem_cons.mp h with h | h
    · cases h
      rw [findList?, if_pos Std.ReflCmp.compare_self]
    · have hne : ¬ compare k k' = .eq := by
        rw [Std.OrientedCmp.gt_iff_lt.mpr (hhd _ h)]
        decide
      rw [findList?, if_neg hne, ih hrest h]

theorem mem_entries_iff {m : OrderedMap κ α} {k : κ} {a : α} :
    (k, a) ∈ m.entries ↔ m.find? k = some a :=
  ⟨findList?_of_mem m.sorted, mem_of_findList?⟩

omit [Std.TransOrd κ] [Std.LawfulEqOrd κ] in
theorem find?_erase_self (m : OrderedMap κ α) (k : κ) : (m.erase k).find? k = none := by
  refine findList?_eq_none fun e he hk => ?_
  have hkeep := (List.mem_filter.mp he).2
  rw [hk] at hkeep
  exact absurd hkeep (by decide)

theorem find?_erase_ne (m : OrderedMap κ α) {k j : κ} (h : j ≠ k) :
    (m.erase k).find? j = m.find? j := by
  have hkj : ¬ compare k j = .eq := fun hk => h (Std.LawfulEqOrd.eq_of_compare hk).symm
  refine Option.ext fun a => ?_
  rw [← mem_entries_iff, ← mem_entries_iff]
  simp [erase, hkj]

omit [Std.LawfulEqOrd κ] in
theorem notMem_of_before {e : κ × α} {l : List (κ × α)}
    (h : ∀ e' ∈ l, compare e.1 e'.1 = .lt) : e ∉ l := by
  intro hmem
  have hself : compare e.1 e.1 = .eq := Std.ReflCmp.compare_self
  exact absurd ((h e hmem).symm.trans hself) (by decide)

omit [Std.LawfulEqOrd κ] in
theorem eq_of_mem_iff {l m : List (κ × α)}
    (hl : l.Pairwise fun a b => compare a.1 b.1 = .lt)
    (hm : m.Pairwise fun a b => compare a.1 b.1 = .lt) (h : ∀ e, e ∈ l ↔ e ∈ m) : l = m := by
  induction l generalizing m with
  | nil =>
    cases m with
    | nil => rfl
    | cons e rest => exact absurd ((h e).mpr List.mem_cons_self) List.not_mem_nil
  | cons e rest ih =>
    cases m with
    | nil => exact absurd ((h e).mp List.mem_cons_self) List.not_mem_nil
    | cons e' rest' =>
      obtain ⟨he, hrest⟩ := List.pairwise_cons.mp hl
      obtain ⟨he', hrest'⟩ := List.pairwise_cons.mp hm
      -- each head is the least entry of its list
      have hhead : e = e' := by
        rcases List.mem_cons.mp ((h e).mp List.mem_cons_self) with hmem | hmem
        · exact hmem
        · rcases List.mem_cons.mp ((h e').mpr List.mem_cons_self) with hmem' | hmem'
          · exact hmem'.symm
          · exact absurd (he _ hmem') (Std.OrientedCmp.not_lt_of_lt (he' _ hmem))
      subst hhead
      refine congrArg (e :: ·) (ih hrest hrest' fun f => ⟨fun hf => ?_, fun hf => ?_⟩)
      · have hmem := (h f).mp (List.mem_cons_of_mem _ hf)
        exact (List.mem_cons.mp hmem).resolve_left fun heq => notMem_of_before he (heq ▸ hf)
      · have hmem := (h f).mpr (List.mem_cons_of_mem _ hf)
        exact (List.mem_cons.mp hmem).resolve_left fun heq => notMem_of_before he' (heq ▸ hf)

omit [Std.TransOrd κ] [Std.LawfulEqOrd κ] in
theorem keys_sorted (m : OrderedMap κ α) : m.keys.Pairwise fun j k => compare j k = .lt :=
  List.pairwise_map.mpr m.sorted

omit [Std.LawfulEqOrd κ] in
/-- No key has two entries. -/
theorem nodup_keys (m : OrderedMap κ α) : m.keys.Nodup := by
  refine m.keys_sorted.imp fun {j k} hlt heq => ?_
  have hself : compare j k = .eq := heq ▸ Std.ReflCmp.compare_self
  rw [hself] at hlt
  cases hlt

/-- A map is determined by what is found for each key. -/
theorem ext_find? {m n : OrderedMap κ α} (h : ∀ k, m.find? k = n.find? k) : m = n := by
  refine ext (eq_of_mem_iff m.sorted n.sorted fun e => ?_)
  rw [mem_entries_iff, mem_entries_iff, h]

end OrderedMap

end CilCoverage
