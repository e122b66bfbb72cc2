/-
  Valid coverage maps.

  The requirements of a map are looked at one by one; none fails exactly if
  every condition holds and no id is met twice (`firstFailure_eq_ok_iff`). In
  terms of the map this is `Valid` (`check_eq_ok_iff`).
-/
import CilCoverage.CoverageMap
import Mathlib.Data.List.Basic

namespace CilCoverage

/-- The sequence does not end before it starts, and each of its conditions branches. -/
structure Sequence.Proper (s : Sequence) : Prop where
  lines : s.startLine ≤ s.endLine
  branches : ∀ c ∈ s.conditions, 2 ≤ c.branches.length

namespace CoverageMap

/-- The statements of all files. -/
def sequences (m : CoverageMap) : List Sequence := m.files.flatMap (·.sequences)

theorem hitIds_eq (m : CoverageMap) : m.hitIds = m.sequences.flatMap Sequence.hitIds := by
  rw [sequences, List.flatMap_assoc]
  rfl

/-- A map that says where hits go, uses no id twice and has no sequence that is not proper. -/
structure Valid (m : CoverageMap) : Prop where
  hitsDir : m.hitsDir ≠ ""
  hitIds : m.hitIds.Nodup
  proper : ∀ s ∈ m.sequences, s.Proper

/-! ## Requirements -/

namespace Requirement

/-- The condition of a requirement. -/
def Holds : Requirement → Prop
  | unused _ => True
  | holds condition _ => condition = true

/-- The id that must not have been met. -/
def id? : Requirement → Option HitId
  | unused id => some id
  | holds _ _ => none

@[simp] theorem holds_unused (id : HitId) : (unused id).Holds := trivial

@[simp] theorem holds_holds (condition : Bool) (otherwise : MapError) :
    (holds condition otherwise).Holds ↔ condition = true := Iff.rfl

@[simp] theorem id?_unused (id : HitId) : (unused id).id? = some id := rfl

@[simp] theorem id?_holds (condition : Bool) (otherwise : MapError) :
    (holds condition otherwise).id? = none := rfl

end Requirement

theorem firstFailure_eq_ok_iff {seen : List HitId} {rs : List Requirement} :
    firstFailure seen rs = .ok () ↔
      (∀ r ∈ rs, r.Holds) ∧ (rs.filterMap Requirement.id?).Nodup ∧
        ∀ id ∈ rs.filterMap Requirement.id?, id ∉ seen := by
  induction rs generalizing seen with
  | nil => simp [firstFailure]
  | cons r rest ih =>
    cases r with
    | unused id =>
      rw [firstFailure, List.forall_mem_cons, List.filterMap_cons_some (Requirement.id?_unused id),
        List.nodup_cons, List.forall_mem_cons]
      split
      · next hmem => simp_all
      · next hnew =>
        rw [List.contains_iff_mem] at hnew
        rw [ih]
        -- what comes later is new after this id: it is new, and another one
        constructor
        · rintro ⟨hholds, hnodup, hunseen⟩
          refine ⟨⟨trivial, hholds⟩, ⟨fun hmem => hunseen id hmem List.mem_cons_self, hnodup⟩,
            hnew, ?_⟩
          exact fun other hother hmem => hunseen other hother (List.mem_cons_of_mem _ hmem)
        · rintro ⟨⟨-, hholds⟩, ⟨hid, hnodup⟩, -, hunseen⟩
          refine ⟨hholds, hnodup, fun other hother hmem => ?_⟩
          rcases List.mem_cons.mp hmem with rfl | hmem
          · exact hid hother
          · exact hunseen other hother hmem
    | holds condition otherwise =>
      rw [firstFailure, List.forall_mem_cons,
        List.filterMap_cons_none (Requirement.id?_holds condition otherwise),
        Requirement.holds_holds]
      split
      · next hcondition => rw [ih, and_iff_right hcondition]
      · next hcondition => simp [hcondition]

theorem conditionRequirements_spec (method : MethodInfo) (c : Condition) :
    (conditionRequirements method c).filterMap Requirement.id? = c.branches.map (·.hitId) ∧
      ((∀ r ∈ conditionRequirements method c, r.Holds) ↔ 2 ≤ c.branches.length) := by
  rw [conditionRequirements]
  constructor
  · rw [List.filterMap_cons_none (Requirement.id?_holds _ _), List.filterMap_map]
    exact congrFun List.filterMap_eq_map' c.branches
  · simp

theorem sequenceRequirements_spec (path : String) (s : Sequence) :
    (sequenceRequirements path s).filterMap Requirement.id? = s.hitIds ∧
      ((∀ r ∈ sequenceRequirements path s, r.Holds) ↔ s.Proper) := by
  rw [sequenceRequirements]
  constructor
  · rw [List.filterMap_cons_none (Requirement.id?_holds _ _),
      List.filterMap_cons_some (Requirement.id?_unused _), List.filterMap_flatMap,
      Sequence.hitIds, Sequence.branches, List.map_flatMap]
    congr 1
    exact List.flatMap_congr fun c _ => (conditionRequirements_spec s.method c).1
  · have hconditions : (∀ r ∈ s.conditions.flatMap (conditionRequirements s.method), r.Holds) ↔
        ∀ c ∈ s.conditions, 2 ≤ c.branches.length := by
      simp only [List.forall_mem_flatMap, (conditionRequirements_spec s.method _).2]
    rw [List.forall_mem_cons, List.forall_mem_cons, hconditions, Requirement.holds_holds,
      decide_eq_true_eq]
    exact ⟨fun ⟨hlines, _, hbranches⟩ => ⟨hlines, hbranches⟩,
      fun h => ⟨h.lines, trivial, h.branches⟩⟩

/-- The ids that must be new are those of all points. -/
theorem filterMap_requirements (m : CoverageMap) :
    m.requirements.filterMap Requirement.id? = m.hitIds := by
  rw [requirements, List.filterMap_cons_none (Requirement.id?_holds _ _), List.filterMap_flatMap]
  refine List.flatMap_congr fun f _ => ?_
  rw [List.filterMap_flatMap]
  exact List.flatMap_congr fun s _ => (sequenceRequirements_spec f.path s).1

/-- The check passes exactly the valid maps. -/
theorem check_eq_ok_iff {m : CoverageMap} : m.check = .ok () ↔ m.Valid := by
  have hholds : (∀ r ∈ m.requirements, r.Holds) ↔ m.hitsDir ≠ "" ∧ ∀ s ∈ m.sequences, s.Proper := by
    rw [requirements, List.forall_mem_cons, Requirement.holds_holds]
    simp only [List.forall_mem_flatMap, (sequenceRequirements_spec _ _).2, sequences]
    simp
  rw [check, firstFailure_eq_ok_iff, filterMap_requirements, hholds]
  constructor
  · rintro ⟨⟨hdir, hproper⟩, hnodup, -⟩
    exact ⟨hdir, hnodup, hproper⟩
  · rintro ⟨hdir, hnodup, hproper⟩
    exact ⟨⟨hdir, hproper⟩, hnodup, by simp⟩

/-- A map that does not say where hits go fails for that reason, whatever else is wrong. -/
theorem check_of_noHitsDir {m : CoverageMap} (h : m.hitsDir = "") :
    m.check = .error .noHitsDir := by
  rw [check, requirements, firstFailure, h]
  rfl

end CoverageMap

end CilCoverage
