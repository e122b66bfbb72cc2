/-
  What a loader keeps, and how often it asks the resolver.

  A loader answers what the resolver does, whatever was loaded (`Faithful`). It
  keeps the images that were found and nothing else, so the resolver is asked
  once for a name that it finds and each time for a name that it does not.
  `Caches` says so of the names that were requested; one request keeps it
  (`Caches.load`), and so any requests to a new loader do (`perform_ask`). The
  count of calls can be trusted: a request is not counted exactly if its reply
  would be the same from any resolver (`calls_load_eq_iff`).
-/
import CilCoverage.Loader
import CilCoverage.Proofs.Histories
import Mathlib.Data.Finset.Card

namespace CilCoverage

/-- The image that is found under a name, if looking does not fail and there is one. -/
def Resolver.image? (resolver : Resolver) (name : String) : Option Bytes :=
  match resolver name with
  | .ok found => found
  | .error _ => none

theorem Resolver.image?_eq_some_iff {resolver : Resolver} {name : String} {image : Bytes} :
    resolver.image? name = some image ↔ resolver name = .ok (some image) := by
  rw [image?]
  cases resolver name <;> simp

namespace Loader

section Load

variable {resolver : Resolver} {loader : Loader} {name : String}

/-! ## Answers -/

/-- What is kept is what the resolver answers. -/
def Faithful (resolver : Resolver) (loader : Loader) : Prop :=
  ∀ name image, loader.loaded.lookup name = some image → resolver name = .ok (some image)

theorem faithful_new (resolver : Resolver) : Faithful resolver new := nofun

/-- A faithful loader answers what the resolver does, and stays faithful. -/
theorem Faithful.load (h : Faithful resolver loader) (name : String) :
    (loader.load resolver name).answer = resolver name ∧
      Faithful resolver (loader.load resolver name).loader := by
  unfold Loader.load
  split
  · next image hlookup => exact ⟨(h name image hlookup).symm, h⟩
  · dsimp only
    split
    · exact ⟨rfl, h⟩
    · exact ⟨rfl, h⟩
    · next image hanswer =>
      refine ⟨rfl, fun other found hlookup => ?_⟩
      dsimp only at hlookup
      rw [List.lookup_cons] at hlookup
      split at hlookup
      · next heq =>
        obtain rfl := eq_of_beq heq
        rw [hanswer, Option.some.inj hlookup]
      · exact h other found hlookup

/-! ## Calls of the resolver -/

theorem load_of_kept {image : Bytes} (h : loader.loaded.lookup name = some image)
    (resolver : Resolver) : loader.load resolver name = ⟨.ok (some image), loader, []⟩ := by
  rw [load, h]

/-- A name that is not kept is asked for, once. -/
theorem load_of_not_kept (h : loader.loaded.lookup name = none) (resolver : Resolver) :
    (loader.load resolver name).answer = resolver name ∧
      (loader.load resolver name).loader.calls = loader.calls + 1 ∧
      (loader.load resolver name).loader.loaded =
        ((resolver.image? name).map (name, ·)).toList ++ loader.loaded := by
  rw [load, h, Resolver.image?]
  dsimp only
  split <;> next hanswer => exact ⟨rfl, rfl, by rw [hanswer]; rfl⟩

theorem calls_load (resolver : Resolver) (loader : Loader) (name : String) :
    (loader.load resolver name).loader.calls =
      loader.calls + if (loader.loaded.lookup name).isSome then 0 else 1 := by
  cases hkept : loader.loaded.lookup name with
  | some image => rw [load_of_kept hkept]; rfl
  | none => exact (load_of_not_kept hkept resolver).2.1

/-- The count stays the same exactly if the resolver has no part in the reply. -/
theorem calls_load_eq_iff : (loader.load resolver name).loader.calls = loader.calls ↔
    ∀ other : Resolver, loader.load other name = loader.load resolver name := by
  cases hkept : loader.loaded.lookup name with
  | some image => simp [load_of_kept hkept]
  | none =>
    -- not kept, so resolvers that fail with different messages are told apart
    have hanswer (other : Resolver) := (load_of_not_kept hkept other).1
    have hcalls := (load_of_not_kept hkept resolver).2.1
    constructor
    · omega
    · intro hsame
      have hfailed (message : String) : resolver name = .error message := by
        rw [← hanswer resolver, ← hsame fun _ => .error message, hanswer]
      exact absurd (Except.error.inj ((hfailed "a").symm.trans (hfailed "b"))) (by decide)

/-- A load changes what is kept under its own name only. -/
theorem Faithful.lookup_load (h : Faithful resolver loader) (name other : String) :
    (loader.load resolver name).loader.loaded.lookup other =
      if other = name then resolver.image? name else loader.loaded.lookup other := by
  cases hkept : loader.loaded.lookup name with
  | some image =>
    rw [load_of_kept hkept]
    split
    · next heq => rw [heq, hkept, Resolver.image?_eq_some_iff.mpr (h name image hkept)]
    · rfl
  | none =>
    rw [(load_of_not_kept hkept resolver).2.2]
    cases resolver.image? name with
    | none =>
      split
      · next heq => exact heq ▸ hkept
      · rfl
    | some image =>
      rw [Option.map_some, Option.toList_some, List.singleton_append, List.lookup_cons]
      by_cases heq : other = name
      · rw [heq, beq_self_eq_true, if_pos rfl]
      · rw [beq_false_of_ne heq, if_neg heq]

end Load

/-! ## What is kept -/

/-- After requests for these names, the images of those that are found are kept and nothing else;
the resolver was asked once for each name that it finds, and once for every request for a name that
it does not find. -/
structure Caches (resolver : Resolver) (names : List String) (loader : Loader) : Prop where
  kept : ∀ name,
    loader.loaded.lookup name = if name ∈ names then resolver.image? name else none
  calls : loader.calls =
    (names.filter fun name => (resolver.image? name).isSome).toFinset.card +
      names.countP fun name => (resolver.image? name).isNone

namespace Caches

variable {resolver : Resolver} {names : List String} {loader : Loader}

theorem atStart (resolver : Resolver) : Caches resolver [] new := ⟨fun _ => rfl, rfl⟩

theorem faithful (h : Caches resolver names loader) : Faithful resolver loader := by
  intro name image hlookup
  rw [h.kept] at hlookup
  split at hlookup
  · exact Resolver.image?_eq_some_iff.mp hlookup
  · cases hlookup

/-- A request keeps this. -/
theorem load (h : Caches resolver names loader) (name : String) :
    Caches resolver (names ++ [name]) (loader.load resolver name).loader where
  kept other := by
    rw [h.faithful.lookup_load, h.kept]
    by_cases heq : other = name <;> simp [heq]
  calls := by
    rw [calls_load, h.calls, h.kept, List.filter_append, List.toFinset_append, List.countP_append]
    cases himage : resolver.image? name with
    | none => simp [himage, Nat.add_assoc]
    | some image =>
      -- a name that is found counts once, so it matters whether it was asked for before
      by_cases hmem : name ∈ names
      · simp [himage, hmem, Finset.insert_eq_of_mem]
      · simp [himage, hmem, Finset.card_insert_of_notMem, Nat.add_right_comm]

/-- The resolver has no part in the reply exactly for names that were asked for and found. -/
theorem load_eq_iff (h : Caches resolver names loader) (name : String) :
    (∀ other : Resolver, loader.load other name = loader.load resolver name) ↔
      name ∈ names ∧ (resolver.image? name).isSome = true := by
  rw [← calls_load_eq_iff, calls_load, h.kept]
  by_cases hmem : name ∈ names <;> simp [hmem, Option.isSome_iff_ne_none]

end Caches

/-! ## Requests -/

/-- A request to a loader. -/
inductive Request where
  | load (name : String)
  | isResolvable (name : String)
  deriving DecidableEq, Repr

/-- The name that is asked for. -/
def Request.name : Request → String
  | load name | isResolvable name => name

/-- What a request is told if nothing fails. -/
inductive Answer where
  | image (found : Option Bytes)
  | resolvable (found : Bool)
  deriving DecidableEq

/-- What the resolver answers to a request. -/
def Request.answeredBy (resolver : Resolver) : Request → Except String Answer
  | load name => (resolver name).map .image
  | isResolvable name => (resolver name).map fun found => .resolvable found.isSome

/-- Makes a request. -/
def ask (resolver : Resolver) (loader : Loader) : Request → Except String Answer × Loader
  | .load name =>
    let r := loader.load resolver name
    (r.answer.map .image, r.loader)
  | .isResolvable name =>
    let (_, loader, answer) := loader.isResolvable resolver name
    (answer.map .resolvable, loader)

variable {resolver : Resolver} {loader : Loader}

/-- Both requests load. -/
theorem loader_ask (resolver : Resolver) (loader : Loader) (request : Request) :
    (loader.ask resolver request).2 = (loader.load resolver request.name).loader := by
  cases request <;> rfl

theorem Faithful.ask (h : Faithful resolver loader) (request : Request) :
    (loader.ask resolver request).1 = request.answeredBy resolver := by
  cases request with
  | load name => rw [Loader.ask, (h.load name).1, Request.answeredBy]
  | isResolvable name =>
    rw [Loader.ask, isResolvable, (h.load name).1, Request.answeredBy]
    cases resolver name <;> rfl

/-- Whatever is asked of a new loader and in whatever order, each answer is that of the resolver.
Kept are the images of the names that were asked for and found, and it is for these names that
further requests do without the resolver. It was called once for each of them and once for every
request for a name that it does not find. -/
theorem perform_ask (resolver : Resolver) (requests : List Request) :
    let r := perform (ask resolver) new requests
    let names := requests.map Request.name
    r.history = requests.map (fun request => (request, request.answeredBy resolver)) ∧
    (∀ name, r.state.loaded.lookup name =
      if name ∈ names then resolver.image? name else none) ∧
    (∀ name, (∀ other : Resolver, r.state.load other name = r.state.load resolver name) ↔
      name ∈ names ∧ (resolver.image? name).isSome = true) ∧
    r.state.calls =
      (names.filter fun name => (resolver.image? name).isSome).toFinset.card +
        names.countP fun name => (resolver.image? name).isNone := by
  intro r names
  have hrun : r.history = requests.map (fun request => (request, request.answeredBy resolver)) ∧
      Caches resolver names r.state := by
    induction requests using List.reverseRecOn with
    | nil => exact ⟨rfl, Caches.atStart resolver⟩
    | append_singleton requests request ih =>
      obtain ⟨hhistory, hcaches⟩ := ih
      simp only [r, names, perform_concat, List.map_append, List.map_singleton, loader_ask]
      exact ⟨by rw [hhistory, hcaches.faithful.ask], hcaches.load request.name⟩
  obtain ⟨hhistory, hcaches⟩ := hrun
  exact ⟨hhistory, hcaches.kept, hcaches.load_eq_iff, hcaches.calls⟩

-- one call for the name that is found, two for each of the others
example : (perform
    (ask fun name => if name = "A" then .ok (some [1]) else if name = "B" then .error "no" else
      .ok none)
    new [.load "B", .isResolvable "A", .load "A", .isResolvable "B", .load "C",
      .isResolvable "C"]).state.calls = 5 := by
  decide

end Loader

end CilCoverage
