import Sj3.Model.Addel

/-! # New dictionaries and study tables (`sdepend.c`)

What `makedict` and `makestdy` write, as it is when the file has been opened. An open
dictionary keeps its lengths in 16 bits; larger ones do not come through. -/

namespace Sj3

def minIdxLen : ℕ := 512
def minSegLen : ℕ := 512
def minSegNum : ℕ := 1
def minStyNum : ℕ := 512
def maxStyNum : ℕ := 0x7fff
def minClStep : ℕ := 1
def maxClStep : ℕ := 256
def minClLen : ℕ := 512
def maxClLen : ℕ := 0x7fff

/-- An empty user dictionary; `none` for a geometry `makedict` does not accept. -/
def makedict (dicid idxlen seglen segnum : ℕ) : Option Dict :=
  if idxlen < minIdxLen ∨ seglen < minSegLen ∨ segnum < minSegNum then none
  else
    some {
      dicid
      idxlen := idxlen % 0x10000
      seglen := seglen % 0x10000
      segunit := 1
      maxunit := segnum
      idxbuf := List.replicate idxlen 0
      segs := [0 :: List.replicate (seglen - 1) dicSegTerm]
      idxofs := [0] }

/-- An empty study table; `none` for sizes `makestdy` does not accept. A size of 0 stands
for the least one. -/
def makestdy (stynum clstep cllen : ℕ) : Option Stdy :=
  let stynum := if stynum = 0 then minStyNum else stynum
  let clstep := if clstep = 0 then minClStep else clstep
  let cllen := if cllen = 0 then minClLen else cllen
  if stynum < minStyNum ∨ clstep < minClStep ∨ cllen < minClLen then none
  else if stynum > maxStyNum ∨ clstep > maxClStep ∨ cllen > maxClLen then none
  else
    some {
      stdymax := stynum
      stdydic := []
      clstdystep := clstep
      clstdyidx := List.replicate 0x100 0
      clstdydic := List.replicate cllen 0 }

end Sj3
