import Sj3.Model.Dict
import Sj3.Model.Study

/-! # What registration and deletion share -/

namespace Sj3

/-- What a request meets and does not decide: the bytes in front of the reading buffer and
of the katakana copy `cvtknj` keeps on the stack, the index string of the segment the last
look-up stopped in, whether memory and file take a further segment, and what an unset
local variable of `del_segment` holds. -/
structure Env where
  below : ℕ → UInt8
  belowKana : ℕ → UInt8
  prevIdx : Bytes
  putdic : ℕ → Bool
  garbage : ℤ

/-- The outcome of a request: the code it returns (`none` if it does not return), the
dictionary and the study table. -/
structure Result where
  ret : Option ℕ
  dict : Dict
  stdy : Option Stdy

/-- The grammar codes a word may be registered with. -/
def isgrm (gram : UInt8) : Bool :=
  (1 ≤ gram && gram ≤ 17) || (21 ≤ gram && gram ≤ 54) || (60 ≤ gram && gram ≤ 81) ||
    (90 ≤ gram && gram ≤ 108) || (111 ≤ gram && gram ≤ 118) ||
    (121 ≤ gram && gram ≤ 128) || (130 ≤ gram && gram ≤ 138) ||
    (140 ≤ gram && gram ≤ 148) || (151 ≤ gram && gram ≤ 158) ||
    (161 ≤ gram && gram ≤ 168) || (171 ≤ gram && gram ≤ 189)

/-- The codes of a reading argument, as far as the buffer of `adddic` and `deldic` takes
them. -/
def yomiCodes (yomi : Bytes) : Bytes := (sj2cdStr yomi (maxWdYomiLen + 1)).1

def addelArg (yomi kanji : Bytes) (hinsi : UInt8) : ℕ :=
  (if ¬ (sj2cdStr yomi (maxWdYomiLen + 1)).2 then adBadYomi else 0) |||
    (if ¬ isvyomi (yomiCodes yomi) then adBadYomi else 0) |||
    (if ¬ isvknj kanji then adBadKanji else 0) |||
    (if ¬ isgrm hinsi then adBadHinsi else 0)

/-- The offset of a pointer into `buf`. -/
def ofsOf (buf p : Bytes) : ℕ := buf.length - p.length

end Sj3
