import Mathlib.Data.List.Basic
import Mathlib.Tactic.Common

/-! # Buffered readers

Elements arrive in pieces of any size and are taken out of a buffer one by one. What a
reader gets does not depend on how the stream was cut. -/

namespace ChunkedReader

variable {α : Type*}

/-- `coming` is what the reads to come return; an empty piece, or none, is a failed read. -/
structure ChunkReader (α : Type*) where
  pending : List α
  coming : List (List α)
  failed : Bool

/-- The next element; `none` from the first failed read on. -/
def next (r : ChunkReader α) : Option α × ChunkReader α :=
  match r.pending with
  | c :: cs => (some c, { r with pending := cs })
  | [] =>
      if r.failed then (none, r)
      else
        match r.coming with
        | (c :: cs) :: coming => (some c, ⟨cs, coming, false⟩)
        | coming => (none, ⟨[], coming.tail, true⟩)

/-- All that is still to be had. -/
def stream (r : ChunkReader α) : List α := r.pending ++ r.coming.flatten

/-- No read fails, and what is still to be had is `s`. -/
structure Holds (r : ChunkReader α) (s : List α) : Prop where
  stream_eq : stream r = s
  not_failed : r.failed = false
  pieces : ∀ piece ∈ r.coming, piece ≠ []

theorem Holds.next {r : ChunkReader α} {c : α} {s : List α} (h : Holds r (c :: s)) :
    ∃ r', next r = (some c, r') ∧ Holds r' s := by
  obtain ⟨hstream, hfailed, hpieces⟩ := h
  obtain ⟨pending, coming, failed⟩ := r
  obtain rfl : failed = false := hfailed
  cases pending with
  | cons a cs =>
      obtain ⟨rfl, hcs⟩ := List.cons.inj hstream
      exact ⟨_, rfl, hcs, rfl, hpieces⟩
  | nil =>
      cases coming with
      | nil => cases hstream
      | cons piece coming =>
          cases piece with
          | nil => exact absurd rfl (hpieces [] List.mem_cons_self)
          | cons a cs =>
              obtain ⟨rfl, hcs⟩ := List.cons.inj hstream
              exact ⟨_, rfl, hcs, rfl, fun p hp => hpieces p (List.mem_cons_of_mem _ hp)⟩

/-- A fresh reader of a stream that arrives in any pieces. -/
theorem holds_flatten {pieces : List (List α)} (h : ∀ piece ∈ pieces, piece ≠ []) :
    Holds ⟨[], pieces, false⟩ pieces.flatten :=
  ⟨rfl, rfl, h⟩

end ChunkedReader
