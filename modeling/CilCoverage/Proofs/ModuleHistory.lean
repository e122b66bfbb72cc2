/-
  What tokens of a module mean, told from the calls that were made.

  Calls on a module are kept with what they returned. As long as the rows of
  both tables are told apart by their tokens, a history of calls explains the
  module that they leave (`Explains`): what a token stands for, and what is
  known of it, follows from the call that returned it and from the bodies that
  were stored under it since. One call keeps this (`Explains.make`), and so all
  calls on a new module do (`history_explains`).
-/
import CilCoverage.Proofs.Histories
import CilCoverage.Proofs.Modules
import Mathlib.Data.List.Pairwise

namespace CilCoverage

/-- The definition with the last of some bodies, if there are any. -/
def MethodDef.withLast (d : MethodDef) (bodies : List Bytes) : MethodDef :=
  match bodies.getLast? with
  | some body => { d with body := some body }
  | none => d

theorem MethodDef.withLast_concat (d : MethodDef) (bodies : List Bytes) (body : Bytes) :
    d.withLast (bodies ++ [body]) = { d.withLast bodies with body := some body } := by
  unfold withLast
  rw [List.getLast?_concat]
  cases bodies.getLast? <;> rfl

theorem MethodDef.token_withLast (d : MethodDef) (bodies : List Bytes) :
    (d.withLast bodies).token = d.token := by
  rw [withLast]
  split <;> rfl

namespace Module

/-! ## Calls -/

/-- A call that may change a module. -/
inductive Call where
  | addReference (assembly : String)
  | addMethod (declaringType name : String) (body : Option Bytes)
  | addMemberRef (name : String) (effect : StackEffect)
  | importProbe (probe : ProbeReference)
  | replaceBody (token : Token) (body : Bytes)
  deriving DecidableEq

/-- What a call returns. -/
inductive Answer where
  | done
  | token (token : Token)
  | failed (error : ModuleError)
  deriving DecidableEq

def Answer.isFailed : Answer → Bool
  | failed _ => true
  | done | token _ => false

def Call.isImport : Call → Bool
  | importProbe _ => true
  | _ => false

/-- Makes a call. -/
def make (m : Module) : Call → Answer × Module
  | .addReference assembly => (.done, m.addReference assembly)
  | .addMethod declaringType name body =>
    (.token (m.addMethod declaringType name body).1, (m.addMethod declaringType name body).2)
  | .addMemberRef name effect =>
    (.token (m.addMemberRef name effect).1, (m.addMemberRef name effect).2)
  | .importProbe probe =>
    match m.importProbe probe with
    | .ok (token, m') => (.token token, m')
    | .error e => (.failed e, m)
  | .replaceBody token body =>
    match m.replaceBody token body with
    | .ok m' => (.done, m')
    | .error e => (.failed e, m)

theorem make_of_failed (m : Module) (call : Call) (h : (m.make call).1.isFailed = true) :
    (m.make call).2 = m := by
  cases call with
  | addReference _ => cases h
  | addMethod _ _ _ => cases h
  | addMemberRef _ _ => cases h
  | importProbe probe =>
    rw [make] at h ⊢
    split at h
    · cases h
    · rfl
  | replaceBody token body =>
    rw [make] at h ⊢
    split at h
    · cases h
    · rfl

/-! ## Histories -/

/-- A call with what it returned. -/
abbrev Entry := Call × Answer

/-- Calls in order, with what they returned. -/
abbrev History := List Entry

namespace Entry

/-- The method that was added under the token. -/
def addedAt (t : Token) : Entry → Option MethodDef
  | (.addMethod declaringType name body, .token token) =>
    if token = t then some ⟨token, declaringType, name, body⟩ else none
  | _ => none

theorem addedAt_addMethod (t token : Token) (declaringType name : String) (body : Option Bytes) :
    addedAt t (.addMethod declaringType name body, .token token) =
      if token = t then some ⟨token, declaringType, name, body⟩ else none :=
  rfl

theorem token_of_addedAt {t : Token} {e : Entry} {d : MethodDef} (h : e.addedAt t = some d) :
    d.token = t := by
  rw [addedAt.eq_def] at h
  split at h
  · split at h
    · next ht =>
      cases h
      exact ht
    · cases h
  · cases h

/-- The body that was stored for the method with the token. -/
def storedAt (t : Token) : Entry → Option Bytes
  | (.replaceBody token body, .done) => if token = t then some body else none
  | _ => none

theorem storedAt_replaceBody (t token : Token) (body : Bytes) :
    storedAt t (.replaceBody token body, .done) = if token = t then some body else none :=
  rfl

/-- The stack effect of the reference that was added under the token; the probe takes one value
and returns none. -/
def effectAt (t : Token) : Entry → Option StackEffect
  | (.addMemberRef _ effect, .token token) => if token = t then some effect else none
  | (.importProbe _, .token token) => if token = t then some ⟨1, 0⟩ else none
  | _ => none

/-- The probe that was imported. -/
def imported : Entry → Option (ProbeReference × Token)
  | (.importProbe probe, .token token) => some (probe, token)
  | _ => none

/-- Tokens that were returned are different, unless both are those of imports. -/
def Apart (a b : Entry) : Prop :=
  ∀ t u, a.2 = .token t → b.2 = .token u →
    (t = u ↔ a.1.isImport = true ∧ b.1.isImport = true)

instance : Std.Symm Apart where
  symm _ _ h t u ht hu := eq_comm.trans ((h u t hu ht).trans and_comm)

theorem imported_eq_some {e : Entry} {probe : ProbeReference} {token : Token}
    (h : e.imported = some (probe, token)) : e = (.importProbe probe, .token token) := by
  rw [imported.eq_def] at h
  split at h
  · cases h
    rfl
  · cases h

theorem isSome_imported {e : Entry} {t : Token} (h : e.2 = .token t) :
    e.imported.isSome = e.1.isImport := by
  obtain ⟨call, answer⟩ := e
  obtain rfl : answer = .token t := h
  cases call <;> rfl

/-- The call returned no token and stored no body. -/
def Silent (e : Entry) : Prop := (∀ t, e.2 ≠ .token t) ∧ ∀ t, e.storedAt t = none

theorem silent_done {call : Call} (hstored : ∀ t, storedAt t (call, .done) = none) :
    Silent (call, .done) :=
  ⟨by simp, hstored⟩

theorem silent_failed (call : Call) (error : ModuleError) : Silent (call, .failed error) :=
  ⟨by simp, fun _ => by cases call <;> rfl⟩

theorem addedAt_eq_none {e : Entry} (h : ∀ t, e.2 ≠ .token t) (t : Token) : e.addedAt t = none := by
  rw [addedAt.eq_def]
  split
  · exact absurd rfl (h _)
  · rfl

theorem effectAt_eq_none {e : Entry} (h : ∀ t, e.2 ≠ .token t) (t : Token) :
    e.effectAt t = none := by
  rw [effectAt.eq_def]
  split
  · exact absurd rfl (h _)
  · exact absurd rfl (h _)
  · rfl

theorem imported_eq_none {e : Entry} (h : ∀ t, e.2 ≠ .token t) : e.imported = none := by
  rw [imported.eq_def]
  split
  · exact absurd rfl (h _)
  · rfl

end Entry

namespace History

/-- The method that was added under a token. -/
def added? (h : History) (t : Token) : Option MethodDef := h.findSome? (Entry.addedAt t)

/-- The bodies that were stored for the method with a token. -/
def stored (h : History) (t : Token) : List Bytes := h.filterMap (Entry.storedAt t)

/-- The definition that was added under a token, with the body that was stored for it last. -/
def definition? (h : History) (t : Token) : Option MethodDef :=
  (h.added? t).map (·.withLast (h.stored t))

/-- The stack effect that a reference was added with. -/
def effect? (h : History) (t : Token) : Option StackEffect := h.findSome? (Entry.effectAt t)

/-- The probe that was imported first. -/
def probe? (h : History) : Option (ProbeReference × Token) := h.findSome? Entry.imported

/-- The call fails: it imports another probe than was imported first, or stores a body under a
token under which no method was added. -/
def Refuses (h : History) : Call → Prop
  | .importProbe probe => ∃ other token, h.probe? = some (other, token) ∧ other ≠ probe
  | .replaceBody token _ => h.added? token = none
  | .addReference _ | .addMethod _ _ _ | .addMemberRef _ _ => False

section Snoc

variable (h : History) (e : Entry) (t : Token)

theorem added?_snoc : added? (h ++ [e]) t = (h.added? t).or (e.addedAt t) := by
  simp [added?, List.findSome?_append]

theorem stored_snoc : stored (h ++ [e]) t = h.stored t ++ (e.storedAt t).toList := by
  simp only [stored, List.filterMap_append]
  cases hstored : e.storedAt t <;> simp [hstored]

variable {h e t} in
theorem definition?_snoc_of_none (hadded : e.addedAt t = none) (hstored : e.storedAt t = none) :
    definition? (h ++ [e]) t = h.definition? t := by
  rw [definition?, added?_snoc, stored_snoc, hadded, hstored, Option.or_none, Option.toList_none,
    List.append_nil, definition?]

variable {h t} in
theorem definition?_eq_none_iff : h.definition? t = none ↔ h.added? t = none :=
  Option.map_eq_none_iff

variable {h t} in
theorem token_of_added? {d : MethodDef} (hd : h.added? t = some d) : d.token = t := by
  obtain ⟨e, -, he⟩ := List.exists_of_findSome?_eq_some hd
  exact Entry.token_of_addedAt he

theorem effect?_snoc : effect? (h ++ [e]) t = (h.effect? t).or (e.effectAt t) := by
  simp [effect?, List.findSome?_append]

theorem probe?_snoc : probe? (h ++ [e]) = h.probe?.or e.imported := by
  simp [probe?, List.findSome?_append]

end Snoc

end History

/-! ## Rows -/

/-- Both tables have fewer rows than tokens tell apart. -/
structure HasRoom (m : Module) : Prop where
  methods : m.methods.length < Token.rowLimit
  memberRefs : m.memberRefs.length < Token.rowLimit

/-- The token is that of a row. -/
def Knows (m : Module) (t : Token) : Prop :=
  (∃ k < m.methods.length, t = Token.ofParts Token.methodTable (k + 1)) ∨
    ∃ k < m.memberRefs.length, t = Token.ofParts Token.memberRefTable (k + 1)

/-- The methods are in the order of their rows. -/
def InOrder (m : Module) : Prop :=
  m.methods.map (·.token) =
    (List.range m.methods.length).map fun k => Token.ofParts Token.methodTable (k + 1)

section Rows

variable {m : Module}

theorem ofParts_ne_of_table (j k : Nat) :
    Token.ofParts Token.methodTable j ≠ Token.ofParts Token.memberRefTable k := by
  intro heq
  have htable := congrArg Token.table heq
  rw [Token.table_ofParts, Token.table_ofParts] at htable
  exact absurd htable (by decide)

theorem InOrder.exists_row (h : m.InOrder) {d : MethodDef} (hd : d ∈ m.methods) :
    ∃ k < m.methods.length, d.token = Token.ofParts Token.methodTable (k + 1) := by
  have hmem : d.token ∈ m.methods.map (·.token) := List.mem_map_of_mem hd
  rw [h, List.mem_map] at hmem
  obtain ⟨k, hk, htoken⟩ := hmem
  exact ⟨k, List.mem_range.mp hk, htoken.symm⟩

theorem length_le_insertMethod (d : MethodDef) (ds : List MethodDef) :
    ds.length ≤ (insertMethod d ds).length := by
  induction ds with
  | nil => simp
  | cons e rest ih =>
    rw [insertMethod]
    split
    · simp
    · split
      · simp
      · simpa using ih

theorem length_insertMethod {d : MethodDef} {ds : List MethodDef}
    (hfresh : ∀ e ∈ ds, d.token ≠ e.token) : (insertMethod d ds).length = ds.length + 1 := by
  induction ds with
  | nil => rfl
  | cons e rest ih =>
    obtain ⟨hne, hrest⟩ := List.forall_mem_cons.mp hfresh
    rw [insertMethod, if_neg hne]
    split
    · rfl
    · rw [List.length_cons, ih hrest, List.length_cons]

theorem insertMethod_of_last {d : MethodDef} {ds : List MethodDef}
    (hlast : ∀ e ∈ ds, e.token.raw < d.token.raw) : insertMethod d ds = ds ++ [d] := by
  induction ds with
  | nil => rfl
  | cons e rest ih =>
    obtain ⟨hlt, hrest⟩ := List.forall_mem_cons.mp hlast
    have hne : d.token ≠ e.token := fun heq => UInt32.lt_irrefl _ (heq ▸ hlt)
    rw [insertMethod, if_neg (UInt32.lt_asymm hlt), if_neg hne, ih hrest, List.cons_append]

variable {declaringType name : String} {body : Option Bytes}

/-- As long as there are rows left, a method is added behind the others. -/
theorem InOrder.methods_addMethod (h : m.InOrder)
    (hroom : (m.addMethod declaringType name body).2.methods.length < Token.rowLimit) :
    (m.addMethod declaringType name body).2.methods =
        m.methods ++ [⟨(m.addMethod declaringType name body).1, declaringType, name, body⟩] ∧
      m.methods.length + 1 < Token.rowLimit := by
  let d : MethodDef := ⟨(m.addMethod declaringType name body).1, declaringType, name, body⟩
  have hlt : m.methods.length < Token.rowLimit :=
    Nat.lt_of_le_of_lt (length_le_insertMethod d m.methods) hroom
  have hfresh : ∀ e ∈ m.methods, d.token ≠ e.token := by
    intro e he heq
    obtain ⟨k, hk, htoken⟩ := h.exists_row he
    exact ofParts_ne hk hlt (htoken.symm.trans heq.symm)
  have hroom' : m.methods.length + 1 < Token.rowLimit := length_insertMethod hfresh ▸ hroom
  refine ⟨insertMethod_of_last fun e he => ?_, hroom'⟩
  obtain ⟨k, hk, htoken⟩ := h.exists_row he
  show e.token.raw < (Token.ofParts Token.methodTable (m.methods.length + 1)).raw
  rw [htoken, UInt32.lt_iff_toNat_lt, Token.toNat_ofParts, Token.toNat_ofParts,
    Nat.mod_eq_of_lt hroom', Nat.mod_eq_of_lt (by omega)]
  omega

theorem InOrder.addMethod (h : m.InOrder)
    (hroom : (m.addMethod declaringType name body).2.methods.length < Token.rowLimit) :
    (m.addMethod declaringType name body).2.InOrder := by
  rw [InOrder, (h.methods_addMethod hroom).1, List.map_append, h, List.length_append,
    List.length_singleton, List.range_succ, List.map_append]
  rfl

/-- The row of the next method is not taken yet. -/
theorem InOrder.method?_of_room (h : m.InOrder) (hroom : m.methods.length < Token.rowLimit) :
    m.method? (m.addMethod declaringType name body).1 = none := by
  rw [method?, List.find?_eq_none]
  intro d hd htoken
  obtain ⟨k, hk, hrow⟩ := h.exists_row hd
  exact ofParts_ne hk hroom (hrow.symm.trans (beq_iff_eq.mp htoken))

theorem InOrder.method?_addMethod (h : m.InOrder)
    (hroom : (m.addMethod declaringType name body).2.methods.length < Token.rowLimit)
    (t : Token) :
    (m.addMethod declaringType name body).2.method? t =
      if t = (m.addMethod declaringType name body).1 then
        some ⟨(m.addMethod declaringType name body).1, declaringType, name, body⟩
      else m.method? t := by
  obtain ⟨hmethods, hlast⟩ := h.methods_addMethod hroom
  rw [method?, hmethods, List.find?_append, ← method?]
  split
  · next ht =>
    rw [ht, h.method?_of_room (Nat.lt_of_succ_lt hlast), Option.none_or, List.find?_singleton,
      if_pos (beq_self_eq_true _)]
  · next ht =>
    rw [List.find?_singleton, if_neg (by simpa using Ne.symm ht), Option.or_none]

theorem InOrder.of_tokens {m' : Module} (h : m.InOrder)
    (htokens : m'.methods.map (·.token) = m.methods.map (·.token)) : m'.InOrder := by
  have hlength := congrArg List.length htokens
  rw [List.length_map, List.length_map] at hlength
  rw [InOrder, htokens, hlength]
  exact h

theorem tokens_replaceBody {m' : Module} {token : Token} {body : Bytes}
    (hr : m.replaceBody token body = .ok m') :
    m'.methods.map (·.token) = m.methods.map (·.token) := by
  rw [replaceBody_eq_ok hr, List.map_map]
  refine List.map_congr_left fun d _ => ?_
  rw [Function.comp_apply]
  split <;> rfl

theorem Knows.mono {m' : Module} {t : Token} (h : m.Knows t)
    (hmethods : m.methods.length ≤ m'.methods.length)
    (hrefs : m.memberRefs.length ≤ m'.memberRefs.length) : m'.Knows t := by
  rcases h with ⟨k, hk, rfl⟩ | ⟨k, hk, rfl⟩
  · exact .inl ⟨k, Nat.lt_of_lt_of_le hk hmethods, rfl⟩
  · exact .inr ⟨k, Nat.lt_of_lt_of_le hk hrefs, rfl⟩

/-- As long as there are rows left, the token of a new method is none that was given out. -/
theorem Knows.ne_addMethod {t : Token} (h : m.Knows t)
    (hroom : m.methods.length + 1 < Token.rowLimit) :
    t ≠ (m.addMethod declaringType name body).1 := by
  rcases h with ⟨k, hk, rfl⟩ | ⟨k, hk, rfl⟩
  · exact ofParts_ne hk (Nat.lt_of_succ_lt hroom)
  · exact (ofParts_ne_of_table _ _).symm

theorem Knows.ne_addMemberRef {t : Token} {effect : StackEffect} (h : m.Knows t)
    (hroom : m.memberRefs.length + 1 < Token.rowLimit) : t ≠ (m.addMemberRef name effect).1 := by
  rcases h with ⟨k, hk, rfl⟩ | ⟨k, hk, rfl⟩
  · exact ofParts_ne_of_table _ _
  · exact token_addMemberRef_ne hroom name effect hk

/-- No call takes rows away. -/
theorem HasRoom.of_make {call : Call} (h : (m.make call).2.HasRoom) : m.HasRoom := by
  cases call with
  | addReference _ => exact ⟨h.1, h.2⟩
  | addMethod _ _ _ => exact ⟨Nat.lt_of_le_of_lt (length_le_insertMethod _ _) h.1, h.2⟩
  | addMemberRef _ _ =>
    exact ⟨h.1, Nat.lt_of_le_of_lt (List.length_append ▸ Nat.le_add_right ..) h.2⟩
  | importProbe probe =>
    rw [make] at h
    split at h
    · next token m' hi =>
      rcases importProbe_eq_ok hi with ⟨-, rfl⟩ | ⟨-, -, rfl⟩
      · exact h
      · exact ⟨h.1, Nat.lt_of_le_of_lt (List.length_append ▸ Nat.le_add_right ..) h.2⟩
    · exact h
  | replaceBody token body =>
    rw [make] at h
    split at h
    · next m' hr =>
      obtain rfl := replaceBody_eq_ok hr
      exact ⟨List.length_map _ ▸ h.1, h.2⟩
    · exact h

end Rows

/-! ## What a history explains -/

/-- What is known of the tokens of a module follows from the calls that were made on it. -/
structure Explains (history : History) (m : Module) : Prop where
  built : m.Built
  inOrder : m.InOrder
  known : ∀ e ∈ history, ∀ t, e.2 = .token t → m.Knows t
  apart : history.Pairwise Entry.Apart
  method_eq : ∀ t, m.method? t = history.definition? t
  stored_eq : ∀ t, history.added? t = none → history.stored t = []
  effect_eq : ∀ t, m.callEffect? t = history.effect? t
  probe_eq : m.probe = history.probe?

namespace Explains

variable {history : History} {m m' : Module} {e : Entry} {token : Token}

theorem atStart (name : String) (image : Bytes) : Explains [] (Module.new name image) where
  built := .new name image
  inOrder := rfl
  known := by simp
  apart := .nil
  method_eq _ := rfl
  stored_eq _ _ := rfl
  effect_eq _ := rfl
  probe_eq := rfl

/-- A token that was not given out before is apart from the others. -/
theorem apart_snoc (h : Explains history m) (he : e.2 = .token token)
    (hfresh : ∀ t, m.Knows t → t ≠ token) (himport : e.1.isImport = true → history.probe? = none) :
    (history ++ [e]).Pairwise Entry.Apart := by
  refine List.pairwise_append.mpr ⟨h.apart, List.pairwise_singleton _ _, ?_⟩
  intro a ha b hb t u ht hu
  obtain rfl := List.mem_singleton.mp hb
  obtain rfl := Answer.token.inj (he.symm.trans hu)
  refine iff_of_false (hfresh t (h.known a ha t ht)) fun ⟨hbefore, hnow⟩ => ?_
  -- of two imports, the first would have been noted
  have hnone := List.findSome?_eq_none_iff.mp (himport hnow) a ha
  rw [← Entry.isSome_imported ht, hnone] at hbefore
  cases hbefore

theorem apart_snoc_of_ne (h : Explains history m) (he : ∀ t, e.2 ≠ .token t) :
    (history ++ [e]).Pairwise Entry.Apart :=
  List.pairwise_append.mpr ⟨h.apart, List.pairwise_singleton _ _, fun _ _ _ hb _ u _ hu =>
    absurd (List.mem_singleton.mp hb ▸ hu) (he u)⟩

theorem known_snoc (h : Explains history m) (hmono : ∀ t, m.Knows t → m'.Knows t)
    (hnew : ∀ t, e.2 = .token t → m'.Knows t) :
    ∀ a ∈ history ++ [e], ∀ t, a.2 = .token t → m'.Knows t := by
  intro a ha t ht
  rcases List.mem_append.mp ha with hmem | hmem
  · exact hmono t (h.known a hmem t ht)
  · obtain rfl := List.mem_singleton.mp hmem
    exact hnew t ht

theorem method_snoc (h : Explains history m) (hmethods : m'.methods = m.methods) {t : Token}
    (hadded : e.addedAt t = none) (hstored : e.storedAt t = none) :
    m'.method? t = History.definition? (history ++ [e]) t := by
  rw [History.definition?_snoc_of_none hadded hstored, ← h.method_eq, method?, hmethods, method?]

theorem stored_snoc (h : Explains history m) {t : Token} (hstored : e.storedAt t = none)
    (ht : History.added? (history ++ [e]) t = none) :
    History.stored (history ++ [e]) t = [] := by
  rw [History.added?_snoc, Option.or_eq_none_iff] at ht
  rw [History.stored_snoc, h.stored_eq t ht.1, hstored]
  rfl

theorem effect_snoc (h : Explains history m) (hrefs : m'.memberRefs = m.memberRefs) {t : Token}
    (heffect : e.effectAt t = none) :
    m'.callEffect? t = History.effect? (history ++ [e]) t := by
  rw [callEffect?_congr hrefs, h.effect_eq, History.effect?_snoc, heffect, Option.or_none]

theorem probe_snoc (h : Explains history m) (hprobe : m'.probe = m.probe.or e.imported) :
    m'.probe = History.probe? (history ++ [e]) := by
  rw [hprobe, h.probe_eq, History.probe?_snoc]

/-- What returns no token and stores no body changes nothing that is known of tokens. -/
theorem silent (h : Explains history m) (he : e.Silent) (built : m'.Built)
    (hmethods : m'.methods = m.methods) (hrefs : m'.memberRefs = m.memberRefs)
    (hprobe : m'.probe = m.probe) : Explains (history ++ [e]) m' where
  built := built
  inOrder := h.inOrder.of_tokens (congrArg _ hmethods)
  known := h.known_snoc (fun t ht => ht.mono (hmethods ▸ Nat.le_refl _) (hrefs ▸ Nat.le_refl _))
    fun t ht => absurd ht (he.1 t)
  apart := h.apart_snoc_of_ne he.1
  method_eq t := h.method_snoc hmethods (Entry.addedAt_eq_none he.1 t) (he.2 t)
  stored_eq t := h.stored_snoc (he.2 t)
  effect_eq t := h.effect_snoc hrefs (Entry.effectAt_eq_none he.1 t)
  probe_eq := h.probe_snoc (by rw [hprobe, Entry.imported_eq_none he.1, Option.or_none])

/-- A method that is added under a new token is what the token stands for. -/
theorem addMethod (h : Explains history m) (declaringType name : String) (body : Option Bytes)
    (hroom : (m.addMethod declaringType name body).2.HasRoom) :
    Explains
      (history ++ [(.addMethod declaringType name body,
        .token (m.addMethod declaringType name body).1)])
      (m.addMethod declaringType name body).2 := by
  obtain ⟨hmethods, hlast⟩ := h.inOrder.methods_addMethod hroom.methods
  have hlength : (m.addMethod declaringType name body).2.methods.length = m.methods.length + 1 := by
    rw [hmethods, List.length_append, List.length_singleton]
  refine
    { built := h.built.addMethod ..
      inOrder := h.inOrder.addMethod hroom.methods
      known := h.known_snoc (fun t ht => ht.mono (hlength ▸ Nat.le_succ _) (Nat.le_refl _)) ?_
      apart := h.apart_snoc rfl (fun t ht => ht.ne_addMethod hlast) (by simp [Call.isImport])
      method_eq := fun t => ?_
      stored_eq := fun t => h.stored_snoc rfl
      effect_eq := fun t => h.effect_snoc rfl rfl
      probe_eq := h.probe_snoc Option.or_none.symm }
  · intro t ht
    obtain rfl := Answer.token.inj ht
    exact .inl ⟨m.methods.length, hlength ▸ Nat.lt_succ_self _, rfl⟩
  · rw [h.inOrder.method?_addMethod hroom.methods]
    split
    · next ht =>
      -- nothing was added under the new token, so nothing was stored for it either
      have hnone : history.added? t = none := by
        rw [← History.definition?_eq_none_iff, ← h.method_eq, ht]
        exact h.inOrder.method?_of_room (Nat.lt_of_succ_lt hlast)
      rw [History.definition?, History.added?_snoc, History.stored_snoc, hnone,
        h.stored_eq t hnone, Option.none_or, Entry.addedAt_addMethod, if_pos ht.symm]
      rfl
    · next ht => exact h.method_snoc rfl (if_neg (Ne.symm ht)) rfl

/-- A reference that is added under a new token has the effect that it was added with. -/
theorem addRef (h : Explains history m) {name : String} {effect : StackEffect}
    (hroom : m.memberRefs.length + 1 < Token.rowLimit)
    (he : e.2 = .token (m.addMemberRef name effect).1)
    (hadded : ∀ t, e.addedAt t = none) (hstored : ∀ t, e.storedAt t = none)
    (heffect : ∀ t, e.effectAt t = if (m.addMemberRef name effect).1 = t then some effect else none)
    (himport : e.1.isImport = true → history.probe? = none)
    (built : m'.Built) (hmethods : m'.methods = m.methods)
    (hrefs : m'.memberRefs = (m.addMemberRef name effect).2.memberRefs)
    (hprobe : m'.probe = m.probe.or e.imported) : Explains (history ++ [e]) m' := by
  have hlength : m'.memberRefs.length = m.memberRefs.length + 1 := by
    rw [hrefs, length_addMemberRef]
  refine
    { built := built
      inOrder := h.inOrder.of_tokens (congrArg _ hmethods)
      known := h.known_snoc
        (fun t ht => ht.mono (hmethods ▸ Nat.le_refl _) (hlength ▸ Nat.le_succ _)) ?_
      apart := h.apart_snoc he (fun t ht => ht.ne_addMemberRef hroom) himport
      method_eq := fun t => h.method_snoc hmethods (hadded t) (hstored t)
      stored_eq := fun t => h.stored_snoc (hstored t)
      effect_eq := fun t => ?_
      probe_eq := h.probe_snoc hprobe }
  · intro t ht
    obtain rfl := Answer.token.inj (he.symm.trans ht)
    exact .inr ⟨m.memberRefs.length, hlength ▸ Nat.lt_succ_self _, rfl⟩
  · rw [callEffect?_congr hrefs, callEffect?_addMemberRef, History.effect?_snoc, heffect]
    split
    · next ht =>
      -- no effect was known of the new token
      have hnone : history.effect? t = none := by
        rw [← h.effect_eq, Option.eq_none_iff_forall_ne_some]
        intro other hother
        exact Knows.ne_addMemberRef (.inr (exists_of_callEffect? hother)) hroom ht
      rw [hnone, if_pos ht.symm, Option.none_or]
    · next ht => rw [h.effect_eq, if_neg (Ne.symm ht), Option.or_none]

/-- A second import returns the token of the first. -/
theorem importAgain (h : Explains history m) (hroom : m.HasRoom) {probe : ProbeReference}
    (hprobe : m.probe = some (probe, token)) :
    Explains (history ++ [(.importProbe probe, .token token)]) m := by
  have himported := h.probe_eq.symm.trans hprobe
  obtain ⟨first, hfirst, hentry⟩ := List.exists_of_findSome?_eq_some himported
  obtain rfl := Entry.imported_eq_some hentry
  refine
    { built := h.built
      inOrder := h.inOrder
      known := h.known_snoc (fun _ => id) fun t ht => h.known _ hfirst t ht
      apart := List.pairwise_append.mpr ⟨h.apart, List.pairwise_singleton _ _, fun a ha b hb => ?_⟩
      method_eq := fun t => h.method_snoc rfl rfl rfl
      stored_eq := fun t => h.stored_snoc rfl
      effect_eq := fun t => ?_
      probe_eq := h.probe_snoc (by rw [hprobe, Option.some_or]) }
  · obtain rfl := List.mem_singleton.mp hb
    by_cases heq : a = (.importProbe probe, .token token)
    · intro t u ht hu
      obtain rfl := heq
      exact iff_of_true (Answer.token.inj (ht.symm.trans hu)) ⟨rfl, rfl⟩
    · exact h.apart.forall ha hfirst heq
  · by_cases ht : token = t
    · obtain rfl := ht
      have heffect :=
        h.built.callEffect?_probe (Nat.le_of_lt hroom.memberRefs) (congrArg _ hprobe)
      rw [History.effect?_snoc, ← h.effect_eq, heffect, Option.some_or]
    · exact h.effect_snoc rfl (if_neg ht)

/-- A body that is stored belongs to the method with the token. -/
theorem replaceBody (h : Explains history m) {body : Bytes}
    (hr : m.replaceBody token body = .ok m') :
    Explains (history ++ [(.replaceBody token body, .done)]) m' := by
  have heq := replaceBody_eq_ok hr
  have hlength : m'.methods.length = m.methods.length := by rw [heq, List.length_map]
  have hrefs : m'.memberRefs = m.memberRefs := by rw [heq]
  have hprobe : m'.probe = m.probe := by rw [heq]
  have hadded : history.added? token ≠ none := by
    rw [ne_eq, ← History.definition?_eq_none_iff, ← h.method_eq]
    intro hnone
    rw [Module.replaceBody, hnone] at hr
    cases hr
  have hsame : ∀ t, History.added? (history ++ [(.replaceBody token body, .done)]) t =
      history.added? t := fun t => (History.added?_snoc ..).trans Option.or_none
  refine
    { built := h.built.replaceBody hr
      inOrder := h.inOrder.of_tokens (tokens_replaceBody hr)
      known := h.known_snoc
        (fun t ht => ht.mono (hlength ▸ Nat.le_refl _) (hrefs ▸ Nat.le_refl _)) (by simp)
      apart := h.apart_snoc_of_ne (by simp)
      method_eq := fun t => ?_
      stored_eq := fun t ht => ?_
      effect_eq := fun t => h.effect_snoc hrefs rfl
      probe_eq := h.probe_snoc (hprobe.trans Option.or_none.symm) }
  · rw [method?_replaceBody hr, h.method_eq, History.definition?, History.definition?, hsame,
      History.stored_snoc, Option.map_map, Entry.storedAt_replaceBody]
    refine Option.map_congr fun d hd => ?_
    have hd : (d.withLast (history.stored t)).token = t :=
      (MethodDef.token_withLast ..).trans (History.token_of_added? hd)
    rw [Function.comp_apply]
    by_cases ht : t = token
    · rw [if_pos (hd.trans ht), if_pos ht.symm, Option.toList_some, MethodDef.withLast_concat]
    · rw [if_neg fun heq => ht (hd.symm.trans heq), if_neg (Ne.symm ht), Option.toList_none,
        List.append_nil]
  · -- a body is stored only if a method was added
    have hne : token ≠ t := fun htoken => hadded (htoken ▸ hsame t ▸ ht)
    exact h.stored_snoc (if_neg hne) ht

/-- A call fails exactly if it is refused by what was called before. -/
theorem isFailed_make (h : Explains history m) (call : Call) :
    (m.make call).1.isFailed = true ↔ history.Refuses call := by
  cases call with
  | addReference _ | addMethod _ _ _ | addMemberRef _ _ =>
    simp [Module.make, Answer.isFailed, History.Refuses]
  | importProbe probe =>
    rw [History.Refuses, ← h.probe_eq, Module.make, Module.importProbe]
    cases hprobe : m.probe with
    | none => simp [Answer.isFailed]
    | some first =>
      obtain ⟨imported, token⟩ := first
      by_cases heq : imported = probe <;> simp [heq, Answer.isFailed]
  | replaceBody token body =>
    rw [History.Refuses, ← History.definition?_eq_none_iff, ← h.method_eq, Module.make,
      Module.replaceBody]
    cases m.method? token <;> simp [Answer.isFailed]

/-- As long as there are rows left, a call keeps this. -/
theorem make (h : Explains history m) (call : Call) (hroom : (m.make call).2.HasRoom) :
    Explains (history ++ [(call, (m.make call).1)]) (m.make call).2 := by
  cases call with
  | addReference assembly =>
    exact h.silent (Entry.silent_done fun _ => rfl) (h.built.addReference assembly) rfl rfl rfl
  | addMethod declaringType name body => exact h.addMethod declaringType name body hroom
  | addMemberRef name effect =>
    have hlast : m.memberRefs.length + 1 < Token.rowLimit :=
      length_addMemberRef m name effect ▸ hroom.memberRefs
    exact h.addRef hlast rfl (fun _ => rfl) (fun _ => rfl) (fun _ => rfl) (by simp [Call.isImport])
      (h.built.addMemberRef name effect) rfl rfl Option.or_none.symm
  | importProbe probe =>
    rw [Module.make] at hroom ⊢
    split at hroom
    · next token m' hi =>
      rcases importProbe_eq_ok hi with ⟨hprobe, rfl⟩ | ⟨hprobe, rfl, rfl⟩
      · exact h.importAgain hroom hprobe
      · have hlast : m.memberRefs.length + 1 < Token.rowLimit := by
          simpa [Module.addMemberRef] using hroom.memberRefs
        exact h.addRef hlast rfl (fun _ => rfl) (fun _ => rfl) (fun _ => rfl)
          (fun _ => h.probe_eq.symm.trans hprobe) (h.built.importProbe hi) rfl rfl
          (by rw [hprobe]; rfl)
    · exact h.silent (Entry.silent_failed _ _) h.built rfl rfl rfl
  | replaceBody token body =>
    rw [Module.make]
    split
    · next m' hr => exact h.replaceBody hr
    · exact h.silent (Entry.silent_failed _ _) h.built rfl rfl rfl

end Explains

/-- Whatever is called on a new module, the history explains the module as long as there are rows
left. -/
theorem explains_perform (name : String) (image : Bytes) (calls : List Call)
    (hroom : (perform make (new name image) calls).state.HasRoom) :
    Explains (perform make (new name image) calls).history
      (perform make (new name image) calls).state :=
  perform_induction (P := fun history m => m.HasRoom → Explains history m)
    (fun _ => .atStart name image)
    (fun _ _ call h hroom => (h hroom.of_make).make call hroom) calls hroom

/-- Tokens keep their meaning whatever is called on a new module, as long as there are rows left.
Every call returns a token of its own, but that all imports of the probe return the token of the
first. A token stands for the method that was added under it, with the body that was stored for it
last, and for no method if none was added; likewise a call through a token has the effect that
the reference was added with, one value taken and none returned if it is the probe. What is called
next fails exactly if it imports another probe than the first or stores a body for a token under
which no method was added. A call that fails leaves the module as it is, and without the calls
that failed, the others return what they returned and the module is the same. -/
theorem history_explains (name : String) (image : Bytes) (calls : List Call)
    (hmethods : (perform make (new name image) calls).state.methods.length < Token.rowLimit)
    (hrefs : (perform make (new name image) calls).state.memberRefs.length < Token.rowLimit) :
    let r := perform make (new name image) calls
    r.history.map Prod.fst = calls ∧
    r.history.Pairwise Entry.Apart ∧
    (∀ t, r.state.method? t = History.definition? r.history t) ∧
    (∀ t, r.state.callEffect? t = History.effect? r.history t) ∧
    (∀ call, (r.state.make call).1.isFailed = true ↔ History.Refuses r.history call) ∧
    (∀ call, (r.state.make call).1.isFailed = true → (r.state.make call).2 = r.state) ∧
    let kept := r.history.filter fun entry => !entry.2.isFailed
    perform make (new name image) (kept.map Prod.fst) = ⟨kept, r.state⟩ := by
  have h := explains_perform name image calls ⟨hmethods, hrefs⟩
  exact ⟨calls_perform .., h.apart, h.method_eq, h.effect_eq, h.isFailed_make,
    make_of_failed _, perform_filter make_of_failed ..⟩

/-- A body that is replaced twice, and a probe that is imported twice with another in between. -/
def replacedTwice : List Call :=
  [.addMemberRef "System.Console::WriteLine" ⟨1, 0⟩,
    .addMethod "App.Program" "Main" (some [0x06, 0x2a]),
    .importProbe ⟨"Coverage.Runtime", "Coverage.Tracker", "Hit"⟩,
    .replaceBody ⟨0x06000001⟩ [0x0a, 0x00, 0x2a],
    .importProbe ⟨"Coverage.Runtime", "Coverage.Tracker", "Other"⟩,
    .replaceBody ⟨0x06000009⟩ [],
    .importProbe ⟨"Coverage.Runtime", "Coverage.Tracker", "Hit"⟩,
    .replaceBody ⟨0x06000001⟩ [0x0e, 0x00, 0x00, 0x2a]]

theorem history_explains_replacedTwice :
    let r := perform make (new "App" []) replacedTwice
    r.state.methods.length < Token.rowLimit ∧ r.state.memberRefs.length < Token.rowLimit ∧
    r.state.method? ⟨0x06000001⟩ =
      some ⟨⟨0x06000001⟩, "App.Program", "Main", some [0x0e, 0x00, 0x00, 0x2a]⟩ ∧
    r.state.callEffect? ⟨0x0a000002⟩ = some ⟨1, 0⟩ ∧ r.state.callEffect? ⟨0x0a000003⟩ = none ∧
    (r.state.make (.replaceBody ⟨0x06000009⟩ [])).1.isFailed = true := by
  have hmethods : (perform make (new "App" []) replacedTwice).state.methods.length <
      Token.rowLimit := by
    decide
  have hrefs : (perform make (new "App" []) replacedTwice).state.memberRefs.length <
      Token.rowLimit := by
    decide
  obtain ⟨-, -, hmethod, heffect, hfails, -⟩ :=
    history_explains "App" [] replacedTwice hmethods hrefs
  exact ⟨hmethods, hrefs, (hmethod _).trans (by decide), (heffect _).trans (by decide),
    (heffect _).trans (by decide), (hfails _).mpr rfl⟩

end Module

end CilCoverage
