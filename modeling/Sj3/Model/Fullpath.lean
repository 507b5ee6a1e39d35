import Sj3.General.Buffer
import Sj3.Model.Text

/-! # File names of requests

How a client's file name is received (`comuni.c`) and made a full path (`execute.c`), on
the string functions of the C library. `MAXPATHLEN` comes from the system. -/

namespace Sj3

open Buffer

def slash : UInt8 := 0x2f
def period : UInt8 := 0x2e

/-! ## The C library -/

def strncmp : Bytes → Bytes → ℕ → ℤ
  | _, _, 0 => 0
  | p, q, n + 1 =>
      if p.headD 0 ≠ q.headD 0 ∨ p.headD 0 = 0 then (p.headD 0).toNat - (q.headD 0).toNat
      else strncmp p.tail q.tail n

def strlcpy (dst src : Bytes) (size : ℕ) : Bytes :=
  if size = 0 then dst else overwrite dst 0 ((cstr src).take (size - 1) ++ [0])

/-- Nothing is appended to a string that has no end within `size`. -/
def strlcat (dst src : Bytes) (size : ℕ) : Bytes :=
  if size ≤ sstrlen dst then dst
  else overwrite dst (sstrlen dst) ((cstr src).take (size - 1 - sstrlen dst) ++ [0])

/-- The tokens that calls of `strtok` find one after the other, where `index` is what has
been read of the first. -/
def strtokAll (sep : UInt8) (index : Bytes) : Bytes → List Bytes
  | [] => if index = [] then [] else [index]
  | c :: p =>
      if c = 0 then if index = [] then [] else [index]
      else if c = sep then (if index = [] then [] else [index]) ++ strtokAll sep [] p
      else strtokAll sep (index ++ [c]) p

/-! ## Receiving a name -/

/-- The memory at `p` after a string has been received into its `n` bytes, and whether it
did not fit. What does not fit is read and dropped. -/
def getNstring : Bytes → Bytes → ℤ → Bytes × Bool
  | [], p, n => (if n > 0 then 0 :: p.tail else p, n - 1 < 0)
  | c :: sent, p, n =>
      if c = 0 then (if n > 0 then 0 :: p.tail else p, n - 1 < 0)
      else if n > 0 then
        (c :: (getNstring sent p.tail (n - 1)).1, (getNstring sent p.tail (n - 1)).2)
      else getNstring sent p (n - 1)

/-- The buffer at `path` with the full path, or `none` for `ERROR`; `tmp` is what the local
buffer holds before. -/
def makeFullPath (maxpathlen : ℕ) (dict_dir tmp path : Bytes) (pathlen : ℕ) : Option Bytes :=
  if path.headD 0 = 0 then none
  else if sstrlen dict_dir + 1 + sstrlen path + 1 > maxpathlen then none
  else
    let tmp := strlcpy tmp path maxpathlen
    if (strtokAll slash [] tmp).any (· = [period, period]) then none
    else if path.headD 0 = slash then
      if strncmp path dict_dir (sstrlen dict_dir) = 0 then some path else none
    else
      let tmp := strlcpy tmp dict_dir pathlen
      let tmp := strlcat tmp [slash, 0] pathlen
      let tmp := strlcat tmp path pathlen
      some (strlcpy path tmp pathlen)

/-- The path a request works on. `exec_makedict`, `exec_makestdy`, `exec_access` and
`exec_makedir` look at the result of `get_nstring`; `exec_opendict` and `exec_openstdy` do
not. -/
def requestPath (maxpathlen : ℕ) (checked : Bool) (dict_dir tmp path sent : Bytes) :
    Option Bytes :=
  let err := getNstring sent path maxpathlen
  if checked && err.2 then none
  else makeFullPath maxpathlen dict_dir tmp err.1 maxpathlen

end Sj3
