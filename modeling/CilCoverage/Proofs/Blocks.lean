/-
  Blocks of hit ids, and clients that share them.

  The ids of a block that does not run over are consecutive numbers
  (`map_toNat_block`). Clients ask for blocks, one request at a time; what they
  are handed is a list of requests with answers, in which every order of the
  requests of any number of clients can occur. Whoever asks, the blocks that
  were handed out make up the numbers from the start to the id that comes next
  (`HandedOut`), and this is so at every moment (`perform_serveClient`).
-/
import CilCoverage.HitIds
import CilCoverage.Proofs.Histories
import Mathlib.Data.List.Nodup

namespace CilCoverage.HitIds

/-! ## Blocks -/

theorem length_block (first : HitId) (count : Nat) : (block first count).length = count := by
  simp [block]

theorem block_add (first : HitId) (m n : Nat) :
    block first (m + n) = block first m ++ block (first + UInt32.ofNat m) n := by
  unfold block
  rw [List.range_add, List.map_append, List.map_map]
  congr 1
  apply List.map_congr_left
  intro k _
  rw [Function.comp_apply, UInt32.ofNat_add, UInt32.add_assoc]

theorem toNat_add_ofNat {first : HitId} {k : Nat} (h : first.toNat + k < UInt32.size) :
    (first + UInt32.ofNat k).toNat = first.toNat + k := by
  have hsize : UInt32.size = 2 ^ 32 := rfl
  rw [UInt32.toNat_add, UInt32.toNat_ofNat']
  omega

theorem map_toNat_block {first : HitId} {count : Nat} (h : first.toNat + count < UInt32.size) :
    (block first count).map UInt32.toNat = List.range' first.toNat count := by
  rw [block, List.map_map, List.range'_eq_map_range]
  apply List.map_congr_left
  intro k hk
  rw [List.mem_range] at hk
  exact toNat_add_ofNat (by omega)

/-- Ids of a block that does not run over are different. -/
theorem nodup_block {first : HitId} {count : Nat} (h : first.toNat + count < UInt32.size) :
    (block first count).Nodup := by
  have hnumbers : ((block first count).map UInt32.toNat).Nodup := by
    rw [map_toNat_block h]
    exact List.nodup_range'
  exact hnumbers.of_map

/-- The ids of a block lie between the first one and the one after the last. -/
theorem of_mem_block {first id : HitId} {count : Nat}
    (hroom : first.toNat + count < UInt32.size) (h : id ∈ block first count) :
    first.toNat ≤ id.toNat ∧ id.toNat < first.toNat + count := by
  have hmem : id.toNat ∈ (block first count).map UInt32.toNat := List.mem_map_of_mem h
  rw [map_toNat_block hroom, List.mem_range'_1] at hmem
  exact hmem

/-- The numbers from `a` on are those up to `b`, and those that follow. -/
theorem range'_add_sub {a b : Nat} (h : a ≤ b) (n : Nat) :
    List.range' a (b + n - a) = List.range' a (b - a) ++ List.range' b n := by
  have hcount : b + n - a = (b - a) + n := by omega
  have hfrom : b = a + (b - a) := by omega
  rw [hcount, ← List.range'_append_1, ← hfrom]

theorem reserve_of_room {n : Nat} (ids : HitIds) (h : ids.next.toNat + n < UInt32.size) :
    ids.reserve n = some (ids.next, ⟨ids.next + UInt32.ofNat n⟩) := if_pos h

theorem reserve_eq_some {ids rest : HitIds} {count : Nat} {first : HitId}
    (h : ids.reserve count = some (first, rest)) :
    first = ids.next ∧ rest = ⟨ids.next + UInt32.ofNat count⟩ ∧
      ids.next.toNat + count < UInt32.size := by
  unfold reserve at h
  split at h
  · next hlt =>
    cases h
    exact ⟨rfl, rfl, hlt⟩
  · cases h

theorem of_reserve {ids rest : HitIds} {count : Nat} {first : HitId}
    (h : ids.reserve count = some (first, rest)) : (block first count).Nodup := by
  obtain ⟨rfl, -, hroom⟩ := reserve_eq_some h
  exact nodup_block hroom

/-! ## Requests -/

/-- What a client asks for. -/
inductive Request where
  /-- The next id. -/
  | next
  /-- A number of consecutive ids. -/
  | reserve (count : Nat)
  deriving DecidableEq, Repr

/-- Number of ids that are asked for. -/
def Request.count : Request → Nat
  | next => 1
  | reserve count => count

/-- What a request is answered, and the ids that are left. -/
def serve (ids : HitIds) : Request → Option (List HitId) × HitIds
  | .next => (ids.take.1.map ([·]), ids.take.2)
  | .reserve count =>
    match ids.reserve count with
    | some (first, rest) => (some (block first count), rest)
    | none => (none, ids)

/-- A block is handed out as a whole, or nothing changes. -/
theorem serve_eq (ids : HitIds) (request : Request) :
    ids.serve request = if ids.next.toNat + request.count < UInt32.size then
      (some (block ids.next request.count), ⟨ids.next + UInt32.ofNat request.count⟩)
    else (none, ids) := by
  cases request with
  | next =>
    have hone : block ids.next 1 = [ids.next] := by simp [block]
    by_cases h : ids.next.toNat + 1 < UInt32.size
    · simp [serve, take, reserve, Request.count, h, hone]
    · simp [serve, take, reserve, Request.count, h]
  | reserve count =>
    by_cases h : ids.next.toNat + count < UInt32.size
    · simp [serve, reserve, Request.count, h]
    · simp [serve, reserve, Request.count, h]

theorem serve_eq_none_iff (ids : HitIds) (request : Request) :
    (ids.serve request).1 = none ↔ UInt32.size - 1 < ids.next.toNat + request.count := by
  have hsize : UInt32.size = 2 ^ 32 := rfl
  rw [serve_eq]
  split
  · simp only [reduceCtorEq, false_iff]
    omega
  · simp only [true_iff]
    omega

theorem serve_of_none {ids : HitIds} {request : Request} (h : (ids.serve request).1 = none) :
    (ids.serve request).2 = ids := by
  rw [serve_eq] at h ⊢
  split at h
  · cases h
  · next hfull => rw [if_neg hfull]

/-! ## Clients -/

/-- A request, with the number of the client that makes it. -/
structure ClientRequest where
  client : Nat
  request : Request
  deriving DecidableEq, Repr

/-- Clients share the ids; it makes no difference who asks. -/
def serveClient (ids : HitIds) (asked : ClientRequest) : Option (List HitId) × HitIds :=
  ids.serve asked.request

/-- What clients asked for, with what they were handed. -/
abbrev Requests := List (ClientRequest × Option (List HitId))

/-- The blocks that were handed out, in order. -/
def blocks (history : Requests) : List (List HitId) := history.filterMap Prod.snd

/-- The blocks make up the numbers from the start to the id that comes next. -/
structure HandedOut (start : HitId) (history : Requests) (ids : HitIds) : Prop where
  le : start.toNat ≤ ids.next.toNat
  numbers : (blocks history).flatten.map UInt32.toNat =
    List.range' start.toNat (ids.next.toNat - start.toNat)

namespace HandedOut

variable {start : HitId} {history : Requests} {ids : HitIds}

theorem atStart (start : HitId) : HandedOut start [] ⟨start⟩ where
  le := Nat.le_refl _
  numbers := by simp [blocks]

/-- A request keeps this. -/
theorem serve (h : HandedOut start history ids) (asked : ClientRequest) :
    HandedOut start (history ++ [(asked, (ids.serveClient asked).1)])
      (ids.serveClient asked).2 := by
  have hblocks : ∀ answer, blocks (history ++ [(asked, answer)]) =
      blocks history ++ answer.toList := by
    intro answer
    cases answer <;> simp [blocks]
  have hle := h.le
  unfold serveClient
  rw [serve_eq]
  split
  · next hroom =>
    -- the new block begins where the last one ends
    have hnext := toNat_add_ofNat hroom
    refine ⟨by dsimp only; omega, ?_⟩
    dsimp only
    rw [hblocks, List.flatten_append, List.map_append, h.numbers, hnext, range'_add_sub hle]
    simp [map_toNat_block hroom]
  · exact ⟨hle, by simpa [hblocks] using h.numbers⟩

/-- The id that comes next can be told from the blocks. -/
theorem next_eq (h : HandedOut start history ids) :
    ids.next.toNat = start.toNat + (blocks history).flatten.length := by
  have hlength := congrArg List.length h.numbers
  rw [List.length_map, List.length_range'] at hlength
  have := h.le
  omega

theorem pairwise_disjoint (h : HandedOut start history ids) :
    (blocks history).Pairwise List.Disjoint := by
  have hnodup : (blocks history).flatten.Nodup := by
    have hnumbers : ((blocks history).flatten.map UInt32.toNat).Nodup := by
      rw [h.numbers]
      exact List.nodup_range'
    exact hnumbers.of_map
  exact (List.nodup_flatten.mp hnodup).2

end HandedOut

theorem handedOut_perform (start : HitId) (requests : List ClientRequest) :
    HandedOut start (perform serveClient ⟨start⟩ requests).history
      (perform serveClient ⟨start⟩ requests).state :=
  perform_induction (HandedOut.atStart start) (fun _ _ asked h => h.serve asked) requests

/-- What a request is handed follows from the blocks that were handed out before. -/
theorem answer_of_history_eq {start : HitId} {requests : List ClientRequest}
    {earlier later : Requests} {asked : ClientRequest} {answer : Option (List HitId)}
    (hhistory : (perform serveClient ⟨start⟩ requests).history =
      earlier ++ (asked, answer) :: later) :
    let next := start.toNat + (blocks earlier).flatten.length
    (answer = none ↔ UInt32.size - 1 < next + asked.request.count) ∧
      ∀ block, answer = some block →
        block.map UInt32.toNat = List.range' next asked.request.count := by
  intro next
  obtain ⟨hearlier, hanswer⟩ := perform_of_history_eq hhistory
  have hbefore := handedOut_perform start (earlier.map Prod.fst)
  rw [hearlier] at hbefore
  generalize (perform serveClient ⟨start⟩ (earlier.map Prod.fst)).state = ids at hanswer hbefore
  have hnext : ids.next.toNat = next := hbefore.next_eq
  rw [← hnext, ← hanswer]
  refine ⟨serve_eq_none_iff ids asked.request, fun block hblock => ?_⟩
  rw [serveClient, serve_eq] at hblock
  split at hblock
  · next hroom =>
    cases hblock
    exact map_toNat_block hroom
  · cases hblock

/-- After a request that failed, one that fits is still handed its ids. -/
theorem isSome_serve_of_none {ids : HitIds} {request smaller : Request}
    (hnone : (ids.serve request).1 = none)
    (hfits : ids.next.toNat + smaller.count ≤ UInt32.size - 1) :
    ((ids.serve request).2.serve smaller).1.isSome = true := by
  rw [serve_of_none hnone, Option.isSome_iff_ne_none, ne_eq, serve_eq_none_iff]
  omega

/-- Whatever clients ask for and in whatever order, the blocks that they are handed are disjoint,
and one after the other they are the numbers from the start up to the id that comes next. At every
moment a request fails exactly if it does not fit in front of the last id; otherwise it is handed
as many ids as it asks for, beginning with the one that comes next. A request that fails changes
nothing, so one that fits is still handed its ids. -/
theorem perform_serveClient (start : HitId) (requests : List ClientRequest) :
    let r := perform serveClient ⟨start⟩ requests
    start.toNat ≤ r.state.next.toNat ∧
    (blocks r.history).flatten.map UInt32.toNat =
      List.range' start.toNat (r.state.next.toNat - start.toNat) ∧
    (blocks r.history).Pairwise List.Disjoint ∧
    (∀ earlier asked answer later, r.history = earlier ++ (asked, answer) :: later →
      let next := start.toNat + (blocks earlier).flatten.length
      (answer = none ↔ UInt32.size - 1 < next + asked.request.count) ∧
      ∀ block, answer = some block →
        block.map UInt32.toNat = List.range' next asked.request.count) ∧
    ∀ request,
      ((r.state.serve request).1 = none ↔
        UInt32.size - 1 < r.state.next.toNat + request.count) ∧
      ((r.state.serve request).1 = none →
        (r.state.serve request).2 = r.state ∧
        ∀ smaller : Request, r.state.next.toNat + smaller.count ≤ UInt32.size - 1 →
          ((r.state.serve request).2.serve smaller).1.isSome = true) := by
  have h := handedOut_perform start requests
  exact ⟨h.le, h.numbers, h.pairwise_disjoint, fun _ _ _ _ => answer_of_history_eq,
    fun request => ⟨serve_eq_none_iff _ request, fun hnone =>
      ⟨serve_of_none hnone, fun _ => isSome_serve_of_none hnone⟩⟩⟩

-- the block of two does not fit any more, but one id does
example : (perform serveClient ⟨0xfffffffc⟩
    [⟨0, .reserve 2⟩, ⟨1, .reserve 2⟩, ⟨0, .next⟩, ⟨2, .next⟩]).history.map Prod.snd =
      [some [0xfffffffc, 0xfffffffd], none, some [0xfffffffe], none] := by
  decide

end CilCoverage.HitIds
