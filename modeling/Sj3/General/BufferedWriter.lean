import Mathlib.Data.List.Basic
import Mathlib.Tactic.Common

/-! # Buffered writers

Elements collect in a buffer until it is flushed. What a writer emits does not depend on
when that happens; how much the buffer has to hold does. -/

namespace BufferedWriter

variable {α : Type*}

/-- `peak` is the most that the buffer has held so far. -/
structure BufWriter (α : Type*) where
  pending : List α
  sent : List α
  peak : ℕ

def put (c : α) (w : BufWriter α) : BufWriter α where
  pending := w.pending ++ [c]
  sent := w.sent
  peak := max w.peak (w.pending.length + 1)

def flush (w : BufWriter α) : BufWriter α where
  pending := []
  sent := w.sent ++ w.pending
  peak := w.peak

/-- All that goes out once the buffer is flushed. -/
def stream (w : BufWriter α) : List α := w.sent ++ w.pending

@[simp] theorem flush_pending (w : BufWriter α) : (flush w).pending = [] := rfl

@[simp] theorem flush_sent (w : BufWriter α) : (flush w).sent = stream w := rfl

@[simp] theorem flush_peak (w : BufWriter α) : (flush w).peak = w.peak := rfl

@[simp] theorem stream_flush (w : BufWriter α) : stream (flush w) = stream w :=
  List.append_nil _

/-- `f` puts exactly `cs` into the buffer. -/
structure Emits (f : BufWriter α → BufWriter α) (cs : List α) : Prop where
  pending : ∀ w, (f w).pending = w.pending ++ cs
  sent : ∀ w, (f w).sent = w.sent
  peak : ∀ w, (f w).peak ≤ max w.peak (w.pending.length + cs.length)

theorem emits_id : Emits (fun w : BufWriter α => w) [] :=
  ⟨fun _ => (List.append_nil _).symm, fun _ => rfl, fun _ => Nat.le_max_left _ _⟩

theorem emits_put (c : α) : Emits (put c) [c] :=
  ⟨fun _ => rfl, fun _ => rfl, fun _ => Nat.le_refl _⟩

/-- Emissions follow one another. -/
theorem Emits.comp {f g : BufWriter α → BufWriter α} {cs ds : List α} (hg : Emits g ds)
    (hf : Emits f cs) : Emits (fun w => g (f w)) (cs ++ ds) := by
  constructor
  · intro w
    rw [hg.pending, hf.pending, List.append_assoc]
  · intro w
    rw [hg.sent, hf.sent]
  · intro w
    have h1 := hf.peak w
    have h2 := hg.peak (f w)
    rw [hf.pending, List.length_append] at h2
    rw [List.length_append]
    omega

theorem Emits.stream {f : BufWriter α → BufWriter α} {cs : List α} (h : Emits f cs)
    (w : BufWriter α) : stream (f w) = stream w ++ cs := by
  rw [BufferedWriter.stream, h.sent, h.pending, BufferedWriter.stream, List.append_assoc]

/-- There are `room` more elements in a buffer of `size` than it holds, and it has never
held more than that. -/
structure Room (size room : ℕ) (w : BufWriter α) : Prop where
  length : w.pending.length + room = size
  peak : w.peak ≤ size

theorem Room.flush {size room : ℕ} {w : BufWriter α} (h : Room size room w) :
    Room size size (flush w) :=
  ⟨by simp, h.peak⟩

theorem Room.emits {size room : ℕ} {w : BufWriter α} (h : Room size room w)
    {f : BufWriter α → BufWriter α} {cs : List α} (hf : Emits f cs) (hcs : cs.length ≤ room) :
    Room size (room - cs.length) (f w) := by
  have hlen := h.length
  have hpeak := h.peak
  have hmax := hf.peak w
  constructor
  · rw [hf.pending, List.length_append]
    omega
  · omega

/-- A buffer with all its room is empty. -/
theorem Room.pending_eq_nil {size : ℕ} {w : BufWriter α} (h : Room size size w) :
    w.pending = [] := by
  have hlen := h.length
  exact List.length_eq_zero_iff.mp (by omega)

end BufferedWriter
