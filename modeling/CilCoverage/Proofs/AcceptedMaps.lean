/-
  The texts that are accepted as coverage maps.

  The text of a map is accepted if the map is valid, and then gives back the
  map; otherwise it is refused for something that is wrong with the map
  (`reports_of_check`). Whatever other text is accepted, the map it gives is
  valid, and written down it is accepted again (`ofText_accepts_valid`).
-/
import CilCoverage.Proofs.MapDocument
import CilCoverage.Proofs.MapValidity

namespace CilCoverage

/-- What an error says of a map. -/
def MapError.Reports (m : CoverageMap) : MapError → Prop
  | noHitsDir => m.hitsDir = ""
  | invertedLines id path =>
    ∃ f ∈ m.files, f.path = path ∧ ∃ s ∈ f.sequences, s.hitId = id ∧ s.endLine < s.startLine
  | repeatedId id => 2 ≤ m.hitIds.count id
  | tooFewBranches offset method =>
    ∃ s ∈ m.sequences, s.method.fullName = method ∧
      ∃ c ∈ s.conditions, c.offset = offset ∧ c.branches.length < 2

namespace CoverageMap

/-- A failure is a condition that does not hold, or an id that is met twice. -/
theorem of_firstFailure_eq_error {seen : List HitId} {rs : List Requirement} {cause : MapError}
    (h : firstFailure seen rs = .error cause) :
    .holds false cause ∈ rs ∨
      ∃ id, cause = .repeatedId id ∧ 2 ≤ (seen ++ rs.filterMap Requirement.id?).count id := by
  induction rs generalizing seen with
  | nil => cases h
  | cons r rest ih =>
    cases r with
    | unused id =>
      rw [List.filterMap_cons_some (Requirement.id?_unused id)]
      rw [firstFailure] at h
      split at h
      · next hmem =>
        cases h
        have hseen : 0 < seen.count id := List.count_pos_iff.mpr (List.contains_iff_mem.mp hmem)
        refine Or.inr ⟨id, rfl, ?_⟩
        rw [List.count_append, List.count_cons_self]
        omega
      · rcases ih h with hmem | ⟨other, rfl, hcount⟩
        · exact Or.inl (List.mem_cons_of_mem _ hmem)
        · refine Or.inr ⟨other, rfl, ?_⟩
          rwa [List.perm_middle.count_eq]
    | holds condition otherwise =>
      rw [List.filterMap_cons_none (Requirement.id?_holds condition otherwise)]
      rw [firstFailure] at h
      split at h
      · exact (ih h).imp_left (List.mem_cons_of_mem _)
      · next hcondition =>
        cases h
        rw [(Bool.not_eq_true _).mp hcondition]
        exact Or.inl List.mem_cons_self

/-- An error of the check is true of the map. -/
theorem reports_of_check {m : CoverageMap} {cause : MapError} (h : m.check = .error cause) :
    cause.Reports m := by
  rcases of_firstFailure_eq_error h with hmem | ⟨id, rfl, hcount⟩
  · rcases List.mem_cons.mp hmem with hdir | hmem
    · simp only [Requirement.holds.injEq] at hdir
      obtain ⟨hempty, rfl⟩ := hdir
      simpa [MapError.Reports] using hempty.symm
    · obtain ⟨f, hf, hmem⟩ := List.mem_flatMap.mp hmem
      obtain ⟨s, hs, hmem⟩ := List.mem_flatMap.mp hmem
      rcases List.mem_cons.mp hmem with hlines | hmem
      · simp only [Requirement.holds.injEq] at hlines
        obtain ⟨hlines, rfl⟩ := hlines
        exact ⟨f, hf, rfl, s, hs, rfl, by simpa using hlines.symm⟩
      · rcases List.mem_cons.mp hmem with hid | hmem
        · cases hid
        · obtain ⟨c, hc, hmem⟩ := List.mem_flatMap.mp hmem
          rcases List.mem_cons.mp hmem with hbranches | hmem
          · simp only [Requirement.holds.injEq] at hbranches
            obtain ⟨hbranches, rfl⟩ := hbranches
            exact ⟨s, List.mem_flatMap.mpr ⟨f, hf, hs⟩, rfl, c, hc, rfl,
              by simpa using hbranches.symm⟩
          · obtain ⟨b, -, hid⟩ := List.mem_map.mp hmem
            cases hid
  · rw [List.nil_append, filterMap_requirements] at hcount
    exact hcount

theorem ofText_toText_of_valid {m : CoverageMap} (h : m.Valid) : ofText m.toText = .ok m := by
  rw [ofText_toText, check_eq_ok_iff.mpr h]

theorem exists_ofText_toText_of_not_valid {m : CoverageMap} (h : ¬ m.Valid) :
    ∃ cause, ofText m.toText = .error (.invalid cause) ∧ cause.Reports m := by
  cases hcheck : m.check with
  | ok => exact absurd (check_eq_ok_iff.mp hcheck) h
  | error cause => exact ⟨cause, by rw [ofText_toText, hcheck], reports_of_check hcheck⟩

theorem valid_of_ofText {text : String} {m : CoverageMap} (h : ofText text = .ok m) : m.Valid := by
  unfold ofText at h
  split at h
  · cases h
  · split at h
    · cases h
    · next hcheck =>
      cases h
      exact check_eq_ok_iff.mp hcheck

/-- Exactly the valid maps can be read: those and no others are read back from their own text,
and no text gives a map that is not one of them. -/
theorem ofText_accepts_valid :
    (∀ m : CoverageMap, (m.Valid → ofText m.toText = .ok m) ∧
      (¬ m.Valid → ∃ cause, ofText m.toText = .error (.invalid cause) ∧ cause.Reports m)) ∧
    ∀ text m, ofText text = .ok m → m.Valid ∧ ofText m.toText = .ok m := by
  refine ⟨fun m => ⟨ofText_toText_of_valid, exists_ofText_toText_of_not_valid⟩, ?_⟩
  intro text m h
  have hvalid := valid_of_ofText h
  exact ⟨hvalid, ofText_toText_of_valid hvalid⟩

/-- A map of two assemblies that share a file; its second statement has the id `id`. -/
def shared (id : HitId) : CoverageMap :=
  let method : MethodInfo := ⟨"T", "M", "T::M"⟩
  let branches : List Branch := [⟨2, 6, true, "nop"⟩, ⟨3, 9, false, "ret"⟩]
  let first : Sequence := ⟨1, 0, 10, 9, 11, 3, method, "ldarg.0", [⟨4, "brtrue.s", branches⟩]⟩
  let second : Sequence := ⟨id, 0, 12, 9, 12, 3, method, "ret", []⟩
  ⟨none, "hits", [⟨"A", "9f", [⟨"a.cs", [first]⟩]⟩, ⟨"B", "86", [⟨"a.cs", [second]⟩]⟩]⟩

/-- A text with its members out of order, one that is none of a map, and records as arrays. -/
def arrayText : String :=
  "\x7b\"assemblies\":[[\"A\",\"9f\",[[\"a.cs\",[[1,0,10,9,11,3,[\"T\",\"M\",\"T::M\"]," ++
  "\"ret\",[]]]]]]],\"more\":[],\"hits_dir\":\"h\",\"version\":\"1\"\x7d"

theorem ofText_accepts_valid_shared :
    ((shared 4).Valid ∧ ofText (shared 4).toText = .ok (shared 4)) ∧
      (¬ (shared 3).Valid ∧
        ∃ cause, ofText (shared 3).toText = .error (.invalid cause) ∧ cause.Reports (shared 3)) ∧
      ∃ m, ofText arrayText = .ok m ∧ m.hitIds = [1] ∧ m.Valid ∧ ofText m.toText = .ok m := by
  have hvalid : (shared 4).Valid := check_eq_ok_iff.mp (by decide +kernel)
  have hinvalid : ¬ (shared 3).Valid := fun h => absurd h.hitIds (by decide)
  have htext : ofText arrayText = .ok ⟨none, "h", [⟨"A", "9f", [⟨"a.cs",
      [⟨1, 0, 10, 9, 11, 3, ⟨"T", "M", "T::M"⟩, "ret", []⟩]⟩]⟩]⟩ := by
    decide +kernel
  obtain ⟨hwritten, hread⟩ := ofText_accepts_valid
  exact ⟨⟨hvalid, (hwritten (shared 4)).1 hvalid⟩, ⟨hinvalid, (hwritten (shared 3)).2 hinvalid⟩,
    _, htext, rfl, hread arrayText _ htext⟩

end CoverageMap

end CilCoverage
