/-
  What the operations on modules keep.

  A module is built from an empty one by the operations (`Module.Built`). No two
  of its methods have one token (`Module.Built.ascending`), so replacing a body
  changes nothing but that body (`Module.replaceBody_at`), and whatever was a
  method still is one. Rows have 24 bits, and references beyond that come round
  to tokens that were given out. As long as there are rows for all of them, a
  call of the imported probe takes one value off the stack and returns nothing
  (`Module.Built.callEffect?_probe`), and importing the probe changes no effect
  that was known (`Module.callEffect?_of_importProbe`).
-/
import CilCoverage.Module

namespace CilCoverage

namespace Module

/-- A module that the operations on modules can give. -/
inductive Built : Module → Prop
  | new (name : String) (image : Bytes) : Built (new name image)
  | addReference {m : Module} (h : Built m) (assembly : String) : Built (m.addReference assembly)
  | addMethod {m : Module} (h : Built m) (declaringType name : String) (body : Option Bytes) :
      Built (m.addMethod declaringType name body).2
  | addMemberRef {m : Module} (h : Built m) (name : String) (effect : StackEffect) :
      Built (m.addMemberRef name effect).2
  | importProbe {m m' : Module} {probe : ProbeReference} {token : Token} (h : Built m)
      (hi : m.importProbe probe = .ok (token, m')) : Built m'
  | replaceBody {m m' : Module} {token : Token} {body : Bytes} (h : Built m)
      (hr : m.replaceBody token body = .ok m') : Built m'
  | mark {m : Module} (h : Built m) : Built m.mark

/-! ## Effects of calls -/

theorem callEffect?_congr {m m' : Module} (h : m'.memberRefs = m.memberRefs) :
    m'.callEffect? = m.callEffect? := by
  funext token
  rw [callEffect?, callEffect?, effects, effects, h]

theorem length_addMemberRef (m : Module) (name : String) (effect : StackEffect) :
    (m.addMemberRef name effect).2.memberRefs.length = m.memberRefs.length + 1 :=
  List.length_append

/-- The reference added last is the one that counts. -/
theorem callEffect?_addMemberRef (m : Module) (name : String) (effect : StackEffect)
    (token : Token) :
    (m.addMemberRef name effect).2.callEffect? token =
      if token = (m.addMemberRef name effect).1 then some effect else m.callEffect? token := by
  simp only [callEffect?, effects, addMemberRef, List.mapIdx_append, List.mapIdx_cons,
    List.mapIdx_nil, Nat.zero_add, List.reverse_append, List.reverse_cons, List.reverse_nil,
    List.nil_append, List.cons_append, List.lookup_cons]
  split <;> simp_all

theorem replaceBody_eq_ok {m m' : Module} {token : Token} {body : Bytes}
    (h : m.replaceBody token body = .ok m') :
    m' = { m with
      methods := m.methods.map fun d =>
        if d.token = token then { d with body := some body } else d } := by
  unfold replaceBody at h
  split at h
  · cases h
    rfl
  · cases h

/-- Looking up a method after a body was replaced: the same one, with its body if it is the
one. -/
theorem method?_replaceBody {m m' : Module} {token : Token} {body : Bytes}
    (h : m.replaceBody token body = .ok m') (t : Token) :
    m'.method? t = (m.method? t).map fun d =>
      if d.token = token then { d with body := some body } else d := by
  have hsame : ((fun d => d.token == t) ∘ fun d : MethodDef =>
      if d.token = token then { d with body := some body } else d) = fun d => d.token == t := by
    funext d
    rw [Function.comp_apply]
    split <;> rfl
  rw [replaceBody_eq_ok h, method?, method?, List.find?_map, hsame]

/-- A body that was replaced is found under its token. -/
theorem method?_of_replaceBody {m m' : Module} {token : Token} {body : Bytes}
    (h : m.replaceBody token body = .ok m') :
    ∃ d, m'.method? token = some d ∧ d.token = token ∧ d.body = some body := by
  have hknown : (m.method? token).isSome = true := by
    unfold replaceBody at h
    split at h
    · next hsome => exact hsome
    · cases h
  obtain ⟨d, hd⟩ := Option.isSome_iff_exists.mp hknown
  have htoken : d.token = token := by simpa using List.find?_some hd
  refine ⟨{ d with body := some body }, ?_, htoken, rfl⟩
  rw [method?_replaceBody h, hd, Option.map_some, if_pos htoken]

/-- Replacing bodies adds no methods and removes none. -/
theorem isSome_method?_of_replaceBody {m m' : Module} {token : Token} {body : Bytes}
    (h : m.replaceBody token body = .ok m') (t : Token) :
    (m'.method? t).isSome = (m.method? t).isSome := by
  rw [method?_replaceBody h, Option.isSome_map]

theorem exists_replaceBody {m : Module} {token : Token} (h : (m.method? token).isSome = true)
    (body : Bytes) : ∃ m', m.replaceBody token body = .ok m' := by
  rw [replaceBody, if_pos h]
  exact ⟨_, rfl⟩

theorem isSome_method?_of_mem {m : Module} {d : MethodDef} (h : d ∈ m.methods) :
    (m.method? d.token).isSome = true := by
  rw [method?, List.find?_isSome]
  exact ⟨d, h, by simp⟩

/-- What importing a probe does: nothing the second time, and otherwise it adds a reference to
the probe, and one to its assembly if there was none. -/
theorem importProbe_eq_ok {m m' : Module} {probe : ProbeReference} {token : Token}
    (h : m.importProbe probe = .ok (token, m')) :
    m.probe = some (probe, token) ∧ m' = m ∨
      m.probe = none ∧ token = (m.addMemberRef probe.memberName ProbeReference.effect).1 ∧
        m' = { (m.addMemberRef probe.memberName ProbeReference.effect).2 with
          references :=
            if probe.assembly ∈ m.references then m.references
            else m.references ++ [probe.assembly]
          probe := some (probe, token) } := by
  unfold importProbe at h
  split at h
  · next imported token' hprobe =>
    split at h
    · next heq =>
      cases h
      exact Or.inl ⟨heq ▸ hprobe, rfl⟩
    · cases h
  · next hprobe =>
    obtain ⟨rfl, rfl⟩ := Prod.mk.inj (Except.ok.inj h)
    refine Or.inr ⟨hprobe, rfl, ?_⟩
    simp only [addMemberRef, addReference, List.contains_iff_mem]
    split <;> rfl

theorem methods_of_importProbe {m m' : Module} {probe : ProbeReference} {token : Token}
    (h : m.importProbe probe = .ok (token, m')) : m'.methods = m.methods := by
  rcases importProbe_eq_ok h with ⟨-, rfl⟩ | ⟨-, -, rfl⟩ <;> rfl

/-! ## What was built -/

theorem mem_insertMethod {d e : MethodDef} {ds : List MethodDef} (h : e ∈ insertMethod d ds) :
    e = d ∨ e ∈ ds := by
  induction ds with
  | nil => exact Or.inl (List.mem_singleton.mp h)
  | cons f rest ih =>
    simp only [insertMethod] at h
    split at h
    · exact List.mem_cons.mp h
    · split at h
      · exact (List.mem_cons.mp h).imp_right (List.mem_cons_of_mem f)
      · rcases List.mem_cons.mp h with rfl | h
        · exact Or.inr List.mem_cons_self
        · exact (ih h).imp_right (List.mem_cons_of_mem f)

/-- The methods have ascending tokens. -/
def Ascending (methods : List MethodDef) : Prop :=
  methods.Pairwise fun a b => a.token.raw < b.token.raw

theorem ascending_insertMethod (d : MethodDef) {ds : List MethodDef} (h : Ascending ds) :
    Ascending (insertMethod d ds) := by
  induction ds with
  | nil => exact List.pairwise_singleton _ _
  | cons e rest ih =>
    obtain ⟨hfirst, hrest⟩ := List.pairwise_cons.mp h
    simp only [insertMethod]
    split
    · next hlt =>
      refine List.pairwise_cons.mpr ⟨List.forall_mem_cons.mpr ⟨hlt, fun f hf => ?_⟩, h⟩
      exact UInt32.lt_trans hlt (hfirst f hf)
    · next hnot =>
      split
      · next heq => exact List.pairwise_cons.mpr ⟨by rwa [heq], hrest⟩
      · next hne =>
        have hraw : d.token.raw ≠ e.token.raw := fun hraw => hne (congrArg Token.mk hraw)
        have hlt : e.token.raw < d.token.raw :=
          UInt32.lt_of_le_of_ne (UInt32.not_lt.mp hnot) hraw.symm
        refine List.pairwise_cons.mpr ⟨fun f hf => ?_, ih hrest⟩
        rcases mem_insertMethod hf with rfl | hf
        · exact hlt
        · exact hfirst f hf

theorem Ascending.of_tokens {methods methods' : List MethodDef} (h : Ascending methods)
    (htokens : methods'.map (·.token) = methods.map (·.token)) : Ascending methods' := by
  unfold Ascending at h ⊢
  rw [← List.pairwise_map (R := fun t u : Token => t.raw < u.raw)] at h ⊢
  rwa [htokens]

/-- The one method with its token has another body. -/
theorem replaceBody_at {m m' : Module} {before rest : List MethodDef} {method : MethodDef}
    {bytes : Bytes} (hmethods : m.methods = before ++ method :: rest)
    (hasc : Ascending m.methods) (h : m.replaceBody method.token bytes = .ok m') :
    m' = { m with methods := before ++ { method with body := some bytes } :: rest } := by
  have hne : ∀ {d e : MethodDef}, d.token.raw < e.token.raw → d.token ≠ e.token :=
    fun hlt heq => UInt32.lt_irrefl _ (heq ▸ hlt)
  rw [hmethods] at hasc
  obtain ⟨-, hfrom, hbefore⟩ := List.pairwise_append.mp hasc
  have hkept : ∀ ds : List MethodDef, (∀ d ∈ ds, d.token ≠ method.token) →
      ds.map (fun d => if d.token = method.token then { d with body := some bytes } else d) = ds :=
    fun ds hds => (List.map_congr_left fun d hd => if_neg (hds d hd)).trans (List.map_id _)
  rw [replaceBody_eq_ok h, hmethods, List.map_append, List.map_cons, if_pos rfl,
    hkept before fun d hd => hne (hbefore d hd method List.mem_cons_self),
    hkept rest fun d hd => (hne ((List.pairwise_cons.mp hfrom).1 d hd)).symm]

/-- No two methods have one token. -/
theorem Built.ascending {m : Module} (h : m.Built) : Ascending m.methods := by
  induction h with
  | new => exact .nil
  | addReference _ _ ih | mark _ ih => exact ih
  | addMethod _ _ _ _ ih => exact ascending_insertMethod _ ih
  | addMemberRef _ _ _ ih => exact ih
  | importProbe _ hi ih => rwa [methods_of_importProbe hi]
  | replaceBody _ hr ih =>
    obtain rfl := replaceBody_eq_ok hr
    refine List.pairwise_map.mpr (ih.imp fun hlt => ?_)
    split <;> split <;> exact hlt

/-- Only calls of member references have an effect that is known. -/
theorem exists_of_callEffect? {m : Module} {token : Token} {effect : StackEffect}
    (h : m.callEffect? token = some effect) :
    ∃ k < m.memberRefs.length, token = Token.ofParts Token.memberRefTable (k + 1) := by
  obtain ⟨before, after, heffects, -⟩ := List.lookup_eq_some_iff.mp h
  have hmem : (token, effect) ∈ m.effects.reverse := heffects ▸ by simp
  obtain ⟨k, hk, heq⟩ := List.mem_mapIdx.mp (List.mem_reverse.mp hmem)
  exact ⟨k, hk, (congrArg Prod.fst heq).symm⟩

/-- Rows have tokens of their own as long as there are few enough of them. -/
theorem ofParts_ne {table : UInt8} {j k : Nat} (hj : j < k) (hk : k < Token.rowLimit) :
    Token.ofParts table (j + 1) ≠ Token.ofParts table (k + 1) := by
  intro heq
  have hrow := congrArg Token.row heq
  rw [Token.row_ofParts, Token.row_ofParts, Nat.mod_eq_of_lt (by omega)] at hrow
  -- the last row of all comes round to none
  rcases Nat.lt_or_eq_of_le (Nat.succ_le_of_lt hk) with hlt | hlast
  · rw [Nat.mod_eq_of_lt hlt] at hrow
    omega
  · have hlast : k + 1 = Token.rowLimit := hlast
    rw [hlast, Nat.mod_self] at hrow
    omega

/-- As long as there are rows left, the next reference has a token of its own. -/
theorem token_addMemberRef_ne {m : Module} (hroom : m.memberRefs.length + 1 < Token.rowLimit)
    (name : String) (effect : StackEffect) {k : Nat} (hk : k < m.memberRefs.length) :
    Token.ofParts Token.memberRefTable (k + 1) ≠ (m.addMemberRef name effect).1 :=
  ofParts_ne hk (Nat.lt_of_succ_lt hroom)

/-- As long as there are rows left, importing the probe changes no effect that was known. -/
theorem callEffect?_of_importProbe {m m' : Module} {probe : ProbeReference} {imported : Token}
    (hroom : m.memberRefs.length + 1 < Token.rowLimit)
    (h : m.importProbe probe = .ok (imported, m')) {token : Token} {effect : StackEffect}
    (heffect : m.callEffect? token = some effect) : m'.callEffect? token = some effect := by
  rcases importProbe_eq_ok h with ⟨-, rfl⟩ | ⟨-, -, rfl⟩
  · exact heffect
  · obtain ⟨k, hk, rfl⟩ := exists_of_callEffect? heffect
    refine (callEffect?_addMemberRef ..).trans ?_
    rw [if_neg (token_addMemberRef_ne hroom _ _ hk), heffect]

/-- The assembly of an imported probe is referred to, and the probe is a member reference. -/
theorem Built.of_probe {m : Module} (h : m.Built) {probe : ProbeReference} {token : Token}
    (hprobe : m.probe = some (probe, token)) :
    probe.assembly ∈ m.references ∧
      ∃ k < m.memberRefs.length, token = Token.ofParts Token.memberRefTable (k + 1) := by
  induction h generalizing probe token with
  | new => cases hprobe
  | addReference _ _ ih => exact ⟨List.mem_append_left _ (ih hprobe).1, (ih hprobe).2⟩
  | addMethod _ _ _ _ ih | mark _ ih => exact ih hprobe
  | addMemberRef _ name effect ih =>
    obtain ⟨href, k, hk, htoken⟩ := ih hprobe
    refine ⟨href, k, ?_, htoken⟩
    rw [length_addMemberRef]
    exact Nat.lt_succ_of_lt hk
  | @importProbe m _ _ _ _ hi ih =>
    rcases importProbe_eq_ok hi with ⟨-, rfl⟩ | ⟨-, rfl, rfl⟩
    · exact ih hprobe
    · obtain ⟨rfl, rfl⟩ := Prod.mk.inj (Option.some.inj hprobe)
      refine ⟨?_, m.memberRefs.length, ?_, rfl⟩
      · dsimp only
        split
        · next hmem => exact hmem
        · exact List.mem_append_right _ (List.mem_singleton.mpr rfl)
      · exact length_addMemberRef .. ▸ Nat.lt_succ_self _
  | replaceBody _ hr ih =>
    obtain rfl := replaceBody_eq_ok hr
    exact ih hprobe

/-- As long as there are rows for all references, a call of the imported probe takes an id and
returns nothing. -/
theorem Built.callEffect?_probe {m : Module} (h : m.Built)
    (hrows : m.memberRefs.length ≤ Token.rowLimit) {token : Token}
    (hprobe : m.probeToken? = some token) :
    m.callEffect? token = some ProbeReference.effect := by
  induction h generalizing token with
  | new => cases hprobe
  | addReference _ _ ih | mark _ ih => exact ih hrows hprobe
  | addMethod _ _ _ _ ih => exact ih hrows hprobe
  | @addMemberRef m h name effect ih =>
    have hlast : m.memberRefs.length < Token.rowLimit := by
      rwa [length_addMemberRef] at hrows
    rw [callEffect?_addMemberRef, if_neg]
    · exact ih (Nat.le_of_lt hlast) hprobe
    · -- the row of the probe is one of those before
      obtain ⟨⟨probe, imported⟩, himported, rfl⟩ := Option.map_eq_some_iff.mp hprobe
      obtain ⟨-, k, hk, rfl⟩ := h.of_probe himported
      exact ofParts_ne hk hlast
  | @importProbe m m' probe imported _ hi ih =>
    rcases importProbe_eq_ok hi with ⟨-, rfl⟩ | ⟨-, himported, rfl⟩
    · exact ih hrows hprobe
    · obtain rfl := Option.some.inj hprobe
      exact (callEffect?_addMemberRef ..).trans (if_pos himported)
  | replaceBody _ hr ih =>
    obtain rfl := replaceBody_eq_ok hr
    exact ih hrows hprobe

/-- After an import, the assembly of the probe is referred to once more if it was not before. -/
theorem Built.references_of_importProbe {m m' : Module} (hm : m.Built) {probe : ProbeReference}
    {token : Token} (h : m.importProbe probe = .ok (token, m')) :
    m'.references =
      if probe.assembly ∈ m.references then m.references
      else m.references ++ [probe.assembly] := by
  rcases importProbe_eq_ok h with ⟨hprobe, rfl⟩ | ⟨-, -, rfl⟩
  · rw [if_pos (hm.of_probe hprobe).1]
  · rfl

end Module

end CilCoverage
