/-
  Methods instrumented with ids from two supplies.

  Two supplies may be some numbers apart, with as many ids left in each as are
  asked for (`Apart`). Whatever is done with ids from the one is done with ids
  from the other, so that what comes of a method is alike: the same error or the
  same reason to skip it, or the same sequences with ids so far apart
  (`newBody_alike`). This goes through to the module (`instrumentMethod_alike`)
  and, by induction on the methods, to the whole work on it (`run_alike`).
-/
import CilCoverage.Proofs.Batch.Ids
import CilCoverage.Proofs.Renumbering.Layout
import CilCoverage.Proofs.Renumbering.Records

namespace CilCoverage

open Result

/-! ## Ids that are moved -/

/-- The number of the second id is that of the first one and `d`. -/
def HitId.Shift (d : Int) (id id' : HitId) : Prop := (id'.toNat : Int) = id.toNat + d

/-- The id moved by `d`. -/
def HitId.move (d : Int) (id : HitId) : HitId := id + UInt32.ofInt d

theorem HitId.Shift.eq_move {d : Int} {id id' : HitId} (h : Shift d id id') : id' = move d id := by
  have hofInt : ∀ x : HitId, UInt32.ofInt x.toNat = x := fun x => by
    have hlt := x.toNat_lt
    rw [UInt32.ofInt, Int.emod_eq_of_lt (by omega) (by omega), Int.toNat_natCast,
      UInt32.ofNat_toNat]
  rw [move, ← hofInt id', h, UInt32.ofInt_add, hofInt]

namespace HitIds

open HitId

/-- Two supplies that are `d` apart, with `room` ids left in each. -/
structure Apart (d : Int) (room : Nat) (ids ids' : HitIds) : Prop where
  shift : Shift d ids.next ids'.next
  left : ids.next.toNat + room < UInt32.size
  right : ids'.next.toNat + room < UInt32.size

variable {d : Int} {m n : Nat} {ids ids' : HitIds}

theorem Apart.mono (h : Apart d m ids ids') (hle : n ≤ m) : Apart d n ids ids' := by
  obtain ⟨hshift, hleft, hright⟩ := h
  exact ⟨hshift, by omega, by omega⟩

/-- Two supplies with room are some numbers apart. -/
theorem exists_apart (h : ids.next.toNat + n < UInt32.size) (h' : ids'.next.toNat + n < UInt32.size) :
    ∃ d, Apart d n ids ids' :=
  ⟨ids'.next.toNat - ids.next.toNat, by unfold Shift; omega, h, h'⟩

/-- As many ids are taken from both. -/
theorem Apart.take (h : Apart d (m + n) ids ids') :
    Apart d n ⟨ids.next + UInt32.ofNat m⟩ ⟨ids'.next + UInt32.ofNat m⟩ ∧
      ∀ id ∈ block ids.next m, Shift d id (move d id) := by
  obtain ⟨hshift, hleft, hright⟩ := h
  have hmove : ∀ k ≤ m, Shift d (ids.next + UInt32.ofNat k) (ids'.next + UInt32.ofNat k) := by
    intro k hk
    unfold Shift at hshift ⊢
    rw [toNat_add_ofNat (by omega), toNat_add_ofNat (by omega)]
    omega
  refine ⟨⟨hmove m (Nat.le_refl m), ?_, ?_⟩, fun id hid => ?_⟩
  · dsimp only
    rw [toNat_add_ofNat (by omega)]
    omega
  · dsimp only
    rw [toNat_add_ofNat (by omega)]
    omega
  · obtain ⟨k, hk, rfl⟩ := List.mem_map.mp hid
    have hshifted := hmove k (Nat.le_of_lt (List.mem_range.mp hk))
    rwa [← hshifted.eq_move]

end HitIds

/-! ## Modules that are alike -/

/-- The same method, but for a body that loads other ids for calls of the probe. -/
inductive MethodDef.Alike (R : HitId → HitId → Prop) (probe : Option Token) :
    MethodDef → MethodDef → Prop
  | kept (method : MethodDef) : Alike R probe method method
  | rewritten (method : MethodDef) {token : Token} {body body' : Bytes}
      (hprobe : probe = some token) (h : MethodBody.SameBody R token body body') :
      Alike R probe { method with body := some body } { method with body := some body' }

/-- The same module, but for the ids that its methods load for calls of its probe. -/
structure Module.Alike (R : HitId → HitId → Prop) (m m' : Module) : Prop where
  same : m' = { m with methods := m'.methods }
  methods : List.Forall₂ (MethodDef.Alike R m.probeToken?) m.methods m'.methods

namespace MethodDef.Alike

variable {R : HitId → HitId → Prop} {probe : Option Token} {method method' : MethodDef}

theorem token_eq (h : MethodDef.Alike R probe method method') : method'.token = method.token := by
  cases h <;> rfl

/-- Both methods get new bodies that are alike. -/
theorem replace (h : MethodDef.Alike R probe method method') {token : Token} {body body' : Bytes}
    (hprobe : probe = some token) (hbody : MethodBody.SameBody R token body body') :
    MethodDef.Alike R probe { method with body := some body } { method' with body := some body' } := by
  cases h with
  | kept => exact .rewritten method hprobe hbody
  | rewritten method => exact .rewritten method hprobe hbody

end MethodDef.Alike

namespace Module.Alike

variable {R : HitId → HitId → Prop} {m m' : Module}

theorem refl (m : Module) : Alike R m m :=
  ⟨rfl, List.forall₂_same.mpr fun method _ => .kept method⟩

theorem mark (h : Alike R m m') : Alike R m.mark m'.mark :=
  ⟨by rw [h.same]; rfl, h.methods⟩

theorem name_eq (h : Alike R m m') : m'.name = m.name := by
  rw [h.same]

theorem callEffect?_eq (h : Alike R m m') : m'.callEffect? = m.callEffect? :=
  callEffect?_congr (by rw [h.same])

theorem map_token_eq (h : Alike R m m') :
    m'.methods.map MethodDef.token = m.methods.map MethodDef.token := by
  rw [← List.forall₂_eq_eq_eq, List.forall₂_map_left_iff, List.forall₂_map_right_iff]
  exact h.methods.flip.imp fun _ _ hd => hd.token_eq

theorem isSome_method? (h : Alike R m m') (token : Token) :
    (m'.method? token).isSome = (m.method? token).isSome := by
  have hknown := congrArg (List.any · (· == token)) h.map_token_eq
  rw [List.any_map, List.any_map] at hknown
  rw [method?, method?, List.isSome_find?, List.isSome_find?]
  exact hknown

/-- A body is replaced in both modules, or in none. -/
theorem replaceBody (h : Alike R m m') {token : Token} (hprobe : m.probeToken? = some token)
    (method : Token) {body body' : Bytes} (hbody : MethodBody.SameBody R token body body') :
    Both (fun n n' => Alike R n n' ∧ n.probeToken? = some token) (m.replaceBody method body)
      (m'.replaceBody method body') := by
  unfold Module.replaceBody
  rw [h.isSome_method?, h.name_eq]
  split
  · refine .ok ⟨⟨by rw [h.same], ?_⟩, hprobe⟩
    rw [List.forall₂_map_left_iff, List.forall₂_map_right_iff]
    refine h.methods.imp fun d d' hd => ?_
    by_cases htoken : d.token = method
    · rw [if_pos htoken, if_pos (hd.token_eq.trans htoken)]
      exact hd.replace hprobe hbody
    · rw [if_neg htoken, if_neg (hd.token_eq ▸ htoken)]
      exact hd
  · exact .error _

end Module.Alike

namespace Instrumenter

open HitId HitIds PreparedBody

variable {d : Int} {config : Config} {symbols : SymbolReader} {probe : Token} {n : Nat}
  {ids ids' : HitIds}

/-! ## Bodies -/

/-- The number of ids that a method takes. -/
def methodDemand (config : Config) (symbols : SymbolReader) (probe : Token) (method : MethodDef) :
    Nat :=
  match (prepare config symbols probe method).2 with
  | .ok p => Statement.idCountAll p.statements
  | .error _ => 0

/-- A method takes the ids that it demands. -/
theorem next_newBody {method : MethodDef}
    (hroom : ids.next.toNat + methodDemand config symbols probe method < UInt32.size)
    (callEffect : Token → Option StackEffect) :
    (newBody config symbols callEffect ids probe method).ids.next.toNat =
      ids.next.toNat + methodDemand config symbols probe method := by
  cases hprepare : prepare config symbols probe method with
  | mk log result =>
    rw [methodDemand, hprepare] at hroom ⊢
    cases result with
    | error reason =>
      rw [newBody, hprepare]
      rfl
    | ok p =>
      rw [newBody_of_reserve callEffect hprepare (reserve_of_room ids hroom)]
      exact toNat_add_ofNat hroom

/-- The ids of the sequences are moved by `d`. -/
structure Moved (d : Int) (sequences sequences' : List DocumentSequence) : Prop where
  mapped : sequences' = sequences.map (DocumentSequence.mapIds (move d))
  shifted : ∀ id ∈ sequences.flatMap (·.sequence.hitIds), Shift d id (move d id)

/-- Statements numbered from both supplies are so far apart. -/
theorem moved_documentSequences {ss : List Statement}
    (h : Apart d (Statement.idCountAll ss + n) ids ids') (root : Option String)
    (code : List (Instruction Nat)) (method : MethodDef) :
    Moved d (documentSequences root code method (NumberedStatement.number ids.next ss))
      (documentSequences root code method (NumberedStatement.number ids'.next ss)) := by
  constructor
  · rw [h.shift.eq_move, move, NumberedStatement.number_add, documentSequences_mapIds]
    rfl
  · rw [hitIds_documentSequences, (NumberedStatement.number_spec _ _).2]
    exact h.take.2

/-- With ids from either supply, the body of a method is left alone for the same reason, or is
the same but for the ids. -/
theorem newBody_alike {method : MethodDef}
    (h : Apart d (methodDemand config symbols probe method + n) ids ids')
    (callEffect : Token → Option StackEffect) :
    let r := newBody config symbols callEffect ids probe method
    let r' := newBody config symbols callEffect ids' probe method
    Both (fun x y => MethodBody.SameBody (Shift d) probe x.1 y.1 ∧ Moved d x.2 y.2)
      r.result r'.result ∧ Apart d n r.ids r'.ids := by
  intro r r'
  cases hprepare : prepare config symbols probe method with
  | mk log result =>
    rw [methodDemand, hprepare] at h
    cases result with
    | error reason =>
      have hr : ∀ ids, newBody config symbols callEffect ids probe method =
          ⟨.error reason, ids, log⟩ := fun ids => by rw [newBody, hprepare]
      rw [show r = _ from hr ids, show r' = _ from hr ids']
      exact ⟨.error reason, h.mono (by omega)⟩
    | ok p =>
      dsimp only at h
      have hleft := h.left
      have hright := h.right
      have hr := newBody_of_reserve callEffect hprepare (reserve_of_room ids (by omega))
      have hr' := newBody_of_reserve callEffect hprepare (reserve_of_room ids' (by omega))
      rw [show r = _ from hr, show r' = _ from hr']
      refine ⟨?_, h.take.1⟩
      -- both bodies get the plan of the same statements, one of them with its ids moved
      have hplan : NumberedStatement.plan (NumberedStatement.number ids'.next p.statements) =
          (NumberedStatement.plan (NumberedStatement.number ids.next p.statements)).mapIds
            (move d) := by
        rw [h.shift.eq_move, move, NumberedStatement.number_add, NumberedStatement.plan_mapIds]
        rfl
      dsimp only
      rw [hplan]
      refine ((assemble_mapIds p probe callEffect method.fullName fun id hid => ?_).mapError
        _).map fun body body' hbody => ⟨hbody, moved_documentSequences h _ _ _⟩
      have hid := (NumberedStatement.plan_ids_perm _).mem_iff.mp hid
      rw [(NumberedStatement.number_spec _ _).2] at hid
      exact h.take.2 id hid

/-! ## Methods -/

/-- What became of a method, with ids moved by `d`. -/
inductive MethodOutcome.Alike (d : Int) : MethodOutcome → MethodOutcome → Prop
  | instrumented {sequences sequences' : List DocumentSequence}
      (h : Moved d sequences sequences') :
      Alike d (.instrumented sequences) (.instrumented sequences')
  | skipped (reason : SkipReason) : Alike d (.skipped reason) (.skipped reason)

/-- What one method does to two modules that are alike. -/
theorem instrumentMethod_alike {m m' : Module} (hm : Module.Alike (Shift d) m m')
    (hprobe : m.probeToken? = some probe) {method : MethodDef}
    (h : Apart d (methodDemand config symbols probe method + n) ids ids') :
    let r := instrumentMethod config symbols m ids probe method
    let r' := instrumentMethod config symbols m' ids' probe method
    Both (MethodOutcome.Alike d) r.outcome r'.outcome ∧ Module.Alike (Shift d) r.module r'.module ∧
      r.module.probeToken? = some probe ∧ Apart d n r.ids r'.ids := by
  obtain ⟨hbody, hids⟩ := newBody_alike h m.callEffect?
  unfold instrumentMethod
  rw [hm.callEffect?_eq]
  generalize newBody config symbols m.callEffect? ids probe method = r at hbody hids ⊢
  generalize newBody config symbols m.callEffect? ids' probe method = r' at hbody hids ⊢
  obtain ⟨result, ids, log⟩ := r
  obtain ⟨result', ids', log'⟩ := r'
  dsimp only at hbody hids ⊢
  cases hbody with
  | error reason => exact ⟨.ok (.skipped reason), hm, hprobe, hids⟩
  | @ok x y hxy =>
    obtain ⟨body, sequences⟩ := x
    obtain ⟨body', sequences'⟩ := y
    have hreplaced := hm.replaceBody hprobe method.token hxy.1
    dsimp only at hreplaced ⊢
    generalize m.replaceBody method.token body = a at hreplaced ⊢
    generalize m'.replaceBody method.token body' = a' at hreplaced ⊢
    cases hreplaced with
    | error cause => exact ⟨.error _, hm, hprobe, hids⟩
    | ok hmodules => exact ⟨.ok (.instrumented hxy.2), hmodules.1, hmodules.2, hids⟩

/-! ## The work on an assembly -/

namespace Progress

/-- Two runs have come as far, with ids that are `d` apart and `room` of them left. -/
structure Alike (d : Int) (probe : Token) (room : Nat) (p p' : Progress) : Prop where
  module : Module.Alike (Shift d) p.module p'.module
  probe : p.module.probeToken? = some probe
  ids : Apart d room p.ids p'.ids
  files : p'.files.entries = mapFileIds (move d) p.files.entries
  shifted : ∀ id ∈ fileIds p.files, Shift d id (move d id)

theorem Alike.addSequences {p p' : Progress} {sequences sequences' : List DocumentSequence}
    (hfiles : p'.files.entries = mapFileIds (move d) p.files.entries)
    (hshifted : ∀ id ∈ fileIds p.files, Shift d id (move d id))
    (h : Moved d sequences sequences') :
    (Progress.addSequences p'.files sequences').entries =
        mapFileIds (move d) (Progress.addSequences p.files sequences).entries ∧
      ∀ id ∈ fileIds (Progress.addSequences p.files sequences), Shift d id (move d id) := by
  constructor
  · rw [h.mapped]
    exact entries_addSequences hfiles sequences
  · intro id hid
    rw [(perm_fileIds_addSequences p.files sequences).mem_iff, List.mem_append] at hid
    exact hid.elim (hshifted id) (h.shifted id)

theorem ids_of_run {p q : Progress} {method : MethodDef} {error : Option InstrumentError}
    (h : p.run config symbols probe [method] = (q, error)) :
    q.ids = (newBody config symbols p.module.callEffect? p.ids probe method).ids := by
  have hids : q.ids = (instrumentMethod config symbols p.module p.ids probe method).ids := by
    simp only [Progress.run] at h
    split at h <;> cases h <;> rfl
  rw [hids]
  rcases instrumentMethod_cases config symbols p.module p.ids probe method with
    ⟨reason, -, hr⟩ | ⟨bytes, sequences, module', -, -, hr⟩ | ⟨new, e, -, -, hr⟩ <;> rw [hr]

/-- The methods of a module take the ids that they demand. -/
theorem next_run {p : Progress} {methods : List MethodDef}
    (hknown : ∀ m ∈ methods, (p.module.method? m.token).isSome = true)
    (hroom : p.ids.next.toNat + (methods.map (methodDemand config symbols probe)).sum <
      UInt32.size) :
    (p.run config symbols probe methods).1.ids.next.toNat =
      p.ids.next.toNat + (methods.map (methodDemand config symbols probe)).sum := by
  induction methods generalizing p with
  | nil => rfl
  | cons method rest ih =>
    obtain ⟨hfirst, hrest⟩ := List.forall_mem_cons.mp hknown
    rw [List.map_cons, List.sum_cons] at hroom ⊢
    have hone : (p.run config symbols probe [method]).2 = none :=
      run_eq_none fun m hm => List.mem_singleton.mp hm ▸ hfirst
    rw [run_cons]
    cases hrun : p.run config symbols probe [method] with
    | mk q error =>
      rw [hrun] at hone
      subst hone
      have hnext : q.ids.next.toNat = p.ids.next.toNat + methodDemand config symbols probe method := by
        rw [ids_of_run hrun]
        exact next_newBody (by omega) _
      dsimp only
      rw [ih (fun m hm => by rw [known_of_run hrun]; exact hrest m hm) (by omega), hnext]
      omega

/-- Both runs stop with the same error, or at the end of the methods. -/
theorem run_alike (config : Config) (symbols : SymbolReader) (methods : List MethodDef)
    {p p' : Progress}
    (h : Alike d probe ((methods.map (methodDemand config symbols probe)).sum + n) p p') :
    let q := p.run config symbols probe methods
    let q' := p'.run config symbols probe methods
    Alike d probe n q.1 q'.1 ∧ q'.2 = q.2 := by
  induction methods generalizing p p' with
  | nil =>
    obtain ⟨hmodule, hprobe, hids, hfiles, hshifted⟩ := h
    exact ⟨⟨hmodule, hprobe, hids.mono (by omega), hfiles, hshifted⟩, rfl⟩
  | cons method rest ih =>
    obtain ⟨hmodule, hprobe, hids, hfiles, hshifted⟩ := h
    rw [List.map_cons, List.sum_cons, Nat.add_assoc] at hids
    -- the first method leaves supplies that are as far apart, with enough ids for the rest
    obtain ⟨houtcome, hmodule, hprobe, hids⟩ := instrumentMethod_alike hmodule hprobe hids
    unfold run
    dsimp only
    generalize instrumentMethod config symbols p.module p.ids probe method = r at *
    generalize instrumentMethod config symbols p'.module p'.ids probe method = r' at *
    obtain ⟨outcome, module, ids, log⟩ := r
    obtain ⟨outcome', module', ids', log'⟩ := r'
    dsimp only at houtcome hmodule hprobe hids ⊢
    cases houtcome with
    | error e => exact ⟨⟨hmodule, hprobe, hids.mono (by omega), hfiles, hshifted⟩, rfl⟩
    | ok halike =>
      cases halike with
      | skipped reason => exact ih ⟨hmodule, hprobe, hids, hfiles, hshifted⟩
      | instrumented hmoved =>
        obtain ⟨hfiles, hshifted⟩ := Alike.addSequences hfiles hshifted hmoved
        exact ih ⟨hmodule, hprobe, hids, hfiles, hshifted⟩

end Progress

end Instrumenter

end CilCoverage
