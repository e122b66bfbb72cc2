/-
  A context that flushes its counts step by step.

  Between two steps it may be hit, and its flush may fail or stop. Its hit file
  has what its last completed flush wrote (`Writer.Sound`), whatever other
  contexts do to their files (`Sound.frame`). Flushing again without new hits
  writes the same counts (`Repeats`).
-/
import CilCoverage.Proofs.Counters.Shards
import CilCoverage.Proofs.Hits.Writing
import CilCoverage.Recorder

namespace CilCoverage.HitsDir

open FileSystem

/-- A flush that is under way. -/
structure Flush where
  /-- The counts that are written. -/
  hits : Hits
  /-- What is left to do. -/
  steps : List WriteStep

/-- The last flush that was completed. -/
structure Saved where
  hits : Hits
  /-- The counters when the file was put in its place. -/
  counters : Counters

/-- A context with its flushes. -/
structure Writer where
  context : HitContext
  flush : Option Flush
  saved : Option Saved

namespace Writer

/-- What the context writes if it flushes these hits. -/
def file (w : Writer) (hits : Hits) : HitFile := HitFile.new w.context.test hits

/-- What the context does to flush these hits. -/
def steps (w : Writer) (hits : Hits) : List WriteStep :=
  writeSteps w.context.hitsDir (Path.join w.context.hitsDir w.context.fileName) (w.file hits)

/-- Goes on with a flush, or ends it when nothing is left to do. -/
def advance (w : Writer) (hits : Hits) : List WriteStep → Writer
  | [] => { w with flush := none, saved := some ⟨hits, w.context.counters⟩ }
  | left => { w with flush := some ⟨hits, left⟩ }

theorem advance_of_ne_nil {w : Writer} {hits : Hits} {left : List WriteStep} (h : left ≠ []) :
    w.advance hits left = { w with flush := some ⟨hits, left⟩ } := by
  cases left with
  | nil => exact absurd rfl h
  | cons => rfl

/-- The count of an id that the last completed flush wrote. -/
def savedCount (w : Writer) (id : HitId) : Nat :=
  match w.saved with
  | some saved => (saved.hits.count id).toNat
  | none => 0

/-- The count that an id had in the context when its last flush was completed. -/
def countWhenSaved (w : Writer) (id : HitId) : Nat :=
  match w.saved with
  | some saved => (saved.counters.count id).toNat
  | none => 0

/-- No flush is under way, and the last one wrote the present counts. -/
def Settled (w : Writer) : Prop :=
  w.flush.isNone = true ∧ w.saved.map (·.hits) = some w.context.counters.snapshot

instance (w : Writer) : Decidable w.Settled :=
  inferInstanceAs (Decidable (w.flush.isNone = true ∧
    w.saved.map (·.hits) = some w.context.counters.snapshot))

/-- What a turn other than a hit may make of a context. -/
inductive Becomes (w : Writer) : Writer → Prop
  | same : Becomes w w
  | flush (steps : List WriteStep) :
    Becomes w { w with flush := some ⟨w.context.counters.snapshot, steps⟩ }
  | advance {flush : Flush} (h : w.flush = some flush) (left : List WriteStep) :
    Becomes w (w.advance flush.hits left)
  | stop : Becomes w { w with flush := none }

/-- What is written and what was written are the counts of some moment. -/
structure Current (w : Writer) : Prop where
  flush : ∀ flush, w.flush = some flush → flush.hits = w.context.counters.snapshot
  saved : ∀ saved, w.saved = some saved →
    saved.hits = saved.counters.snapshot ∧ saved.counters.Lawful

theorem Current.becomes {w later : Writer} (h : w.Current) (hlawful : w.context.counters.Lawful)
    (hlater : w.Becomes later) : later.Current := by
  cases hlater with
  | same => exact h
  | flush steps => exact { h with flush := fun flush hflush => by cases hflush; rfl }
  | stop => exact { h with flush := nofun }
  | @advance flush hflush left =>
    have hhits := h.flush flush hflush
    cases left with
    | nil => exact ⟨nofun, fun saved hsaved => by cases hsaved; exact ⟨hhits, hlawful⟩⟩
    | cons => exact { h with flush := fun flush hflush => by cases hflush; exact hhits }

/-- A context that was settled goes on without hits, so that it writes what it had written. -/
structure Repeats (w later : Writer) : Prop where
  context : later.context = w.context
  saved : later.saved.map (·.hits) = w.saved.map (·.hits)
  flush : w.Settled → ∀ flush, later.flush = some flush →
    flush.hits = w.context.counters.snapshot

theorem Repeats.refl (w : Writer) : w.Repeats w where
  context := rfl
  saved := rfl
  flush := fun hsettled flush hflush => by
    have hnone := hsettled.1
    rw [hflush] at hnone
    cases hnone

theorem Repeats.becomes {w between later : Writer} (h : w.Repeats between) (hsettled : w.Settled)
    (hlater : between.Becomes later) : w.Repeats later := by
  cases hlater with
  | same => exact h
  | flush steps =>
    refine { h with flush := fun _ flush hflush => ?_ }
    cases hflush
    show between.context.counters.snapshot = _
    rw [h.context]
  | stop => exact { h with flush := fun _ => nofun }
  | @advance flush hflush left =>
    have hhits := h.flush hsettled flush hflush
    cases left with
    | nil =>
      refine ⟨h.context, ?_, fun _ => nofun⟩
      rw [hsettled.2, ← hhits]
      rfl
    | cons => exact { h with flush := fun _ flush hflush => by cases hflush; exact hhits }

theorem Repeats.savedCount {w later : Writer} (h : w.Repeats later) (id : HitId) :
    later.savedCount id = w.savedCount id := by
  have hcount : ∀ v : Writer, v.savedCount id =
      ((v.saved.map (·.hits)).map fun hits => (hits.count id).toNat).getD 0 := by
    intro v
    unfold Writer.savedCount
    cases v.saved with
    | none => rfl
    | some saved => rfl
  rw [hcount, hcount, h.saved]

/-- The file of the context has what was saved, and the scratch file what was begun. -/
structure Sound (w : Writer) (path : String) (files : FileSystem) : Prop where
  hitsDir : w.context.hitsDir = path
  isHitName : IsHitName w.context.fileName
  fits : ∀ test ∈ w.context.test, HitFile.Fits test
  lawful : w.context.counters.Lawful
  reached : w.saved ≠ none → Reached ⟨path, files⟩
  file : files.fileAt? (goal path ++ [w.context.fileName]) =
    w.saved.map fun saved => (w.file saved.hits).toBytes
  flush : ∀ flush, w.flush = some flush →
    Remaining path (filePath ⟨path, files⟩ w.context.fileName) (w.file flush.hits).toBytes files
      flush.steps

/-- What one context does to its files is nothing to another. -/
theorem Sound.frame {w other : Writer} {path : String} {files more : FileSystem}
    (h : w.Sound path files) (hother : IsHitName other.context.fileName)
    (hne : w.context.fileName ≠ other.context.fileName)
    (hchanges : files.ChangesAt more (places path other.context.fileName)) :
    w.Sound path more where
  hitsDir := h.hitsDir
  isHitName := h.isHitName
  fits := h.fits
  lawful := h.lawful
  reached := fun hsaved => (h.reached hsaved).of_changesAt hchanges
  file := by
    rw [hchanges.fileAt?_eq _ (hother.notMem_places h.isHitName.extension? (concat_ne hne)), h.file]
  flush := fun flush hflush => by
    refine (h.flush flush hflush).of_fileAt? (hchanges.fileAt?_eq _ ?_)
    rw [h.isHitName.goal_scratch (d := ⟨path, files⟩)]
    simp only [places, List.mem_cons, List.not_mem_nil, or_false, not_or]
    refine ⟨concat_ne fun heq => hne (h.isHitName.scratchName_inj hother heq), concat_ne ?_⟩
    exact (h.isHitName.ne_scratchName hother.extension?).symm

end Writer

end CilCoverage.HitsDir
