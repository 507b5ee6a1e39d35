import Sj3.Verification.Encoding.Turns

/-! # What the conversions read and write

Neither conversion looks for the terminator inside of a character, and the room is compared
with what the characters take, without the terminator. -/

namespace Sj3

open Recode

/-- How many bytes of a character are looked at. -/
def sjisLook (c : UInt8) : ℕ := if issjis1 c then 2 else 1

def eucLook (c : UInt8) : ℕ := if iseuc c || c = 0x8e then 2 else 1

/-- The conversion of the string at `p` with the loop `c` stays within the string and within
`outlen` bytes: nothing behind the terminator is looked at, no byte is written at `outlen` or
behind, and a result means that all of the string was converted, with a terminator behind the
output. -/
structure ConvWithin (c : Coding UInt8 UInt8) (look : UInt8 → ℕ) (outlen : ℕ) (p : Bytes)
    (result : Option Strconv) : Prop where
  read : ∀ t ∈ (c.loop outlen (p.length + 1) 0 0 p).turns,
    t.src + look (t.char.headD 0) ≤ sstrlen p + 1
  readLast : (c.loop outlen (p.length + 1) 0 0 p).src +
    (if (c.loop outlen (p.length + 1) 0 0 p).refused then
      look ((c.loop outlen (p.length + 1) 0 0 p).rest.headD 0) else 1) ≤ sstrlen p + 1
  writeFirst : 0 < outlen
  written : ∀ t ∈ (c.loop outlen (p.length + 1) 0 0 p).turns, t.dest + c.outSize t.char ≤ outlen
  converted : ∀ s, result = some s →
    (c.loop outlen (p.length + 1) 0 0 p).src = sstrlen p ∧
      s.out.length = (c.loop outlen (p.length + 1) 0 0 p).dest ∧ s.out.length < outlen

/-- Between two characters the output is never full, and where the string ends inside of a
character there is no room for all of them. -/
def Convertible (c : Coding UInt8 UInt8) (outlen : ℕ) (p : Bytes) : Prop :=
  c.Clear outlen 0 (c.chars (cstr p)) ∧
    (c.Whole (c.chars (cstr p)) ∨ outlen < c.total (c.chars (cstr p)))

section Within

variable {c : Coding UInt8 UInt8} (hstop : c.stop = 0) {look : UInt8 → ℕ}
  (hpos : ∀ b, 0 < look b) (hwidth : ∀ b, look b ≤ c.taken b) (htwo : ∀ b, look b ≤ 2)
  {replaced : Bytes → Bool} {outlen : ℕ} {p : Bytes}
include hstop hpos hwidth htwo

theorem convWithin_iff :
    ConvWithin c look outlen p (strconvOf c.put replaced (c.loop outlen (p.length + 1) 0 0 p)) ↔
      Convertible c outlen p := by
  obtain ⟨q, hp, hq⟩ := exists_cstr_append p
  have hlen : (cstr p).length < p.length + 1 := by
    rw [← sstrlen_eq_cstr]
    exact Nat.lt_succ_of_le (sstrlen_le_length p)
  have hiff := @Coding.loop_within_iff _ _ c _ outlen (p.length + 1) 0 0 (cstr p) q
    (by rw [hstop]; exact zero_notMem_cstr p) (by rw [hstop]; exact hq) hlen (Nat.zero_le _)
  rw [hp, Nat.zero_add, Nat.zero_add, ← sstrlen_eq_cstr] at hiff
  rw [Convertible, ← hiff]
  obtain ⟨hturns, hdest⟩ := @Coding.loop_dest _ _ c _ outlen (p.length + 1) 0 0 p (Nat.zero_le _)
  rw [Nat.zero_add, Coding.total_eq] at hdest
  constructor
  · intro h
    refine ⟨⟨fun t ht => ?_, ?_⟩, fun hgo => ?_⟩
    · have := h.read t ht
      have := hpos (t.char.headD 0)
      omega
    · have := h.readLast
      split_ifs at this
      · have := hpos ((c.loop outlen (p.length + 1) 0 0 p).rest.headD 0)
        omega
      · omega
    · obtain ⟨hsrc, hout, hlt⟩ := h.converted _ (by rw [strconvOf, hgo]; rfl)
      exact ⟨hsrc, hout ▸ hlt⟩
  · rintro ⟨hin, hfin⟩
    refine ⟨fun t ht => ?_, ?_, ?_, hturns, fun s hs => ?_⟩
    · have hend := hin.turn_end t ht
      have := hwidth (t.char.headD c.stop)
      rw [Coding.width, hstop] at *
      omega
    · split_ifs with hrefused
      · -- the character there is no room for lies in front of the terminator
        obtain ⟨k, hsrc, hrest⟩ := @Coding.loop_rest _ _ c _ outlen (p.length + 1) 0 0 p
        have hne := Coding.loop_refused (Nat.lt_succ_self _) (Nat.zero_le _) hrefused
        have hk : k ≠ sstrlen p := by
          rintro rfl
          refine hne ?_
          rw [hrest, hstop, List.headD_eq_head?_getD, List.head?_drop]
          simpa using getD_sstrlen p
        have := hin.last
        have := htwo ((c.loop outlen (p.length + 1) 0 0 p).rest.headD 0)
        omega
      · exact Nat.succ_le_succ hin.last
    · have := (hiff.mp ⟨hin, hfin⟩).1 0 (Nat.zero_le _)
      simp at this
      omega
    · rw [strconvOf] at hs
      split_ifs at hs with hrefused
      obtain ⟨hsrc, hlt⟩ := hfin (Bool.not_eq_true _ ▸ hrefused)
      obtain rfl := Option.some.inj hs
      exact ⟨hsrc, hdest.symm, hdest ▸ hlt⟩

end Within

theorem look_range : ∀ b : UInt8,
    (0 < sjisLook b ∧ sjisLook b ≤ sjisTaken b ∧ sjisLook b ≤ 2) ∧
      0 < eucLook b ∧ eucLook b ≤ eucTaken b ∧ eucLook b ≤ 2 := by
  apply Byte.forall_of_fin
  decide +kernel

/-- When `sj3_str_sjistoeuc` stays within the string and the output. -/
def SjistoeucWithin (outlen : ℕ) (d : Char2) (sjis : Bytes) : Prop :=
  ConvWithin (sjisCoding d) sjisLook outlen sjis (strSjistoeuc outlen d sjis)

def EuctosjisWithin (outlen : ℕ) (d : Char2) (euc : Bytes) : Prop :=
  ConvWithin (eucCoding d) eucLook outlen euc (strEuctosjis outlen d euc)

/-- Both stay within them if and only if the output is never full between two characters and
the string does not end inside of a character there is room for. -/
theorem strconv_within_iff (outlen : ℕ) (d : Char2) (p : Bytes) :
    (SjistoeucWithin outlen d p ↔ Convertible (sjisCoding d) outlen p) ∧
      (EuctosjisWithin outlen d p ↔ Convertible (eucCoding d) outlen p) := by
  constructor
  · rw [SjistoeucWithin, strSjistoeuc, strSjistoeucLoop_eq outlen d _ 0]
    exact convWithin_iff rfl (fun b => (look_range b).1.1) (fun b => (look_range b).1.2.1)
      fun b => (look_range b).1.2.2
  · rw [EuctosjisWithin, strEuctosjis, strEuctosjisLoop_eq outlen d _ 0]
    exact convWithin_iff rfl (fun b => (look_range b).2.1) (fun b => (look_range b).2.2.1)
      fun b => (look_range b).2.2.2

/-- One letter fills the output of one byte, and the terminator goes behind it. -/
theorem not_strconv_within :
    ¬ ∀ (outlen : ℕ) (d : Char2) (p : Bytes),
      SjistoeucWithin outlen d p ∧ EuctosjisWithin outlen d p := by
  intro h
  obtain ⟨-, hlen, hlt⟩ := (h 1 (0x81, 0x40) [0x61, 0]).1.converted ⟨[0x61], 0⟩ rfl
  exact absurd hlt (by decide)

end Sj3
