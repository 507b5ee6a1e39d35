import Sj3.Model.Level1
import Sj3.Verification.Text

/-! # The two ways to write a request -/

namespace Sj3

open BufferedWriter

/-! ## What is written -/

/-- The bytes `put_ndata` takes from a pointer. -/
def ndata (p : Option Bytes) (n : ℕ) : Bytes :=
  match p with
  | some p => readN n p
  | none => List.replicate n 0

@[simp] theorem length_ndata (p : Option Bytes) (n : ℕ) : (ndata p n).length = n := by
  cases p with
  | none => exact List.length_replicate
  | some p => exact length_readN n p

theorem emits_putString (p : Option Bytes) (n : ℕ) : Emits (putString p n) (ndata p n) := by
  induction n generalizing p with
  | zero =>
      cases p with
      | none => exact emits_id
      | some p => exact emits_id
  | succ n ih =>
      cases p with
      | none => exact (ih none).comp (emits_put 0)
      | some p => exact (ih (some p.tail)).comp (emits_put (p.headD 0))

theorem emits_putInt (c : ℤ) : Emits (putInt c) (intData .big c) :=
  (emits_put _).comp ((emits_put _).comp ((emits_put _).comp (emits_put _)))

/-- The pointer behind what has been written. -/
theorem putNdata_fst (p : Option Bytes) (n : ℕ) (o : Out) :
    (putNdata p n o).1 = p.map (·.drop n) := by
  induction n generalizing p o with
  | zero => cases p <;> rfl
  | succ n ih =>
      cases p with
      | none => exact ih none _
      | some p =>
          rw [putNdata, ih, Option.map_some, Option.map_some, List.drop_tail]

theorem ndata_split (p : Option Bytes) (n m : ℕ) :
    ndata p n ++ ndata (p.map (·.drop n)) m = ndata p (n + m) := by
  cases p with
  | none => simp [ndata]
  | some p =>
      induction n generalizing p with
      | zero => simp [ndata, readN]
      | succ n ih =>
          have h := ih p.tail
          simp only [ndata, Option.map_some, List.drop_tail] at h ⊢
          rw [readN, List.cons_append, h, Nat.add_right_comm, readN]

/-! ## Writing in pieces -/

/-- What lies in the buffer and what has gone out, after some arguments. -/
structure Written (bufsiz : ℕ) (o : Out) (cs : Bytes) (r : ℕ × Out) : Prop where
  stream : stream r.2 = stream o ++ cs
  room : Room bufsiz r.1 r.2

theorem overLoop_spec {bufsiz : ℕ} (hpos : 0 < bufsiz) (turns : ℕ) (a : OverArg)
    (buflen : ℕ) (o : Out) (hroom : Room bufsiz buflen o) (hturns : a.len ≤ turns)
    (hfirst : 0 < buflen ∨ a.len < turns) :
    Written bufsiz o (ndata a.data a.len) (overLoop bufsiz turns a buflen o) := by
  induction turns generalizing a buflen o with
  | zero =>
      have hlen : a.len = 0 := by omega
      have hnil : ndata a.data 0 = [] := List.length_eq_zero_iff.mp (length_ndata _ _)
      rw [hlen, hnil]
      exact ⟨by simp [overLoop], hroom⟩
  | succ turns ih =>
      rw [overLoop]
      split
      · rename_i hlen
        dsimp only
        have hpiece : (if a.len < buflen then a.len else buflen) = min a.len buflen := by
          split <;> omega
        rw [hpiece, putNdata_fst]
        have hemits := emits_putString a.data (min a.len buflen)
        have hnext := (hroom.emits hemits (by rw [length_ndata]; omega)).flush
        have hrest := ih ⟨a.data.map (·.drop (min a.len buflen)), a.len - buflen⟩ bufsiz _
          hnext (by dsimp only; omega) (Or.inl hpos)
        refine ⟨?_, hrest.room⟩
        have hsum : min a.len buflen + (a.len - buflen) = a.len := by omega
        calc stream _ = stream (flush (putString a.data (min a.len buflen) o)) ++
              ndata (a.data.map (·.drop (min a.len buflen))) (a.len - buflen) := hrest.stream
          _ = stream o ++ (ndata a.data (min a.len buflen) ++
              ndata (a.data.map (·.drop (min a.len buflen))) (a.len - buflen)) := by
            rw [stream_flush, hemits.stream, List.append_assoc]
          _ = stream o ++ ndata a.data a.len := by rw [ndata_split, hsum]
      · rename_i hlen
        have hzero : a.len = 0 := by omega
        have hnil : ndata a.data 0 = [] := List.length_eq_zero_iff.mp (length_ndata _ _)
        rw [hzero, hnil]
        exact ⟨by simp, hroom⟩

theorem overArgs_spec {bufsiz : ℕ} (hpos : 0 < bufsiz) (args : List OverArg)
    (buflen : ℕ) (o : Out) (hroom : Room bufsiz buflen o) :
    Written bufsiz o (args.flatMap fun a => ndata a.data a.len)
      (overArgs bufsiz args buflen o) := by
  induction args generalizing buflen o with
  | nil => exact ⟨by simp [overArgs], hroom⟩
  | cons a args ih =>
      rw [overArgs, List.flatMap_cons]
      split
      · rename_i hlen
        have hemits := emits_putString a.data a.len
        have hnext := hroom.emits hemits (by rw [length_ndata]; omega)
        rw [length_ndata] at hnext
        have hrest := ih (buflen - a.len) _ hnext
        refine ⟨?_, hrest.room⟩
        rw [← List.append_assoc, ← hemits.stream]
        exact hrest.stream
      · have hloop := overLoop_spec hpos (a.len + 1) a buflen o hroom (by omega)
          (Or.inr (by omega))
        have hrest := ih _ _ hloop.room
        refine ⟨?_, hrest.room⟩
        rw [← List.append_assoc, ← hloop.stream]
        exact hrest.stream

/-- `put_over` sends its arguments one behind the other, whatever the size of the buffer,
and leaves nothing in it. -/
theorem putOver_spec (bufsiz : BufSiz) (args : List OverArg) {buflen : ℕ} {o : Out}
    (hroom : Room bufsiz.size buflen o) :
    (putOver bufsiz buflen args o).sent =
        stream o ++ args.flatMap (fun a => ndata a.data a.len) ∧
      (putOver bufsiz buflen args o).pending = [] ∧
      (putOver bufsiz buflen args o).peak ≤ bufsiz.size := by
  have hpos : 0 < bufsiz.size := by
    have h := bufsiz.large
    omega
  have h := overArgs_spec hpos args buflen o hroom
  rw [putOver]
  split
  · exact ⟨h.stream, rfl, h.room.peak⟩
  · rename_i hfull
    have hroom' := h.room
    rw [not_not.mp hfull] at hroom'
    have hnil := hroom'.pending_eq_nil
    have hstream := h.stream
    rw [BufferedWriter.stream, hnil, List.append_nil] at hstream
    exact ⟨hstream, hnil, hroom'.peak⟩

/-! ## Requests -/

theorem putCmd_eq (cmd : ℤ) (o : Out) :
    (putCmd cmd o).sent = o.sent ∧ (putCmd cmd o).pending = intData .big cmd ∧
      (putCmd cmd o).peak ≤ 4 := by
  have h := emits_putInt cmd
  have hpeak := h.peak { o with pending := [], peak := 0 }
  refine ⟨h.sent _, h.pending _, ?_⟩
  exact hpeak

theorem length_intData (host : ByteOrder) (c : ℤ) : (intData host c).length = 4 := by
  cases host <;> rfl

theorem room_putCmd (bufsiz : BufSiz) (cmd : ℤ) (o : Out) :
    Room bufsiz.size (bufsiz.size - cmdLen) (putCmd cmd o) := by
  obtain ⟨-, hpending, hpeak⟩ := putCmd_eq cmd o
  have hsize := bufsiz.large
  refine ⟨?_, by omega⟩
  rw [hpending, length_intData, cmdLen]
  omega

theorem room_putInt (bufsiz : BufSiz) (c cmd : ℤ) (o : Out) :
    Room bufsiz.size (bufsiz.size - cmdLen - intLen) (putInt c (putCmd cmd o)) := by
  have hsize := bufsiz.large
  have h := (room_putCmd bufsiz cmd o).emits (emits_putInt c)
    (by rw [length_intData, cmdLen]; omega)
  rwa [length_intData] at h

/-- The two ways to send a request from `o` on: the buffered one writes `cs`, the other one
`ds`. -/
structure Request.Writes (r : Request) (bufsiz : BufSiz) (o : Out) (cs ds : Bytes) : Prop where
  buffered : r.buffered.sent = stream o ++ cs
  pieced : r.pieced.sent = stream o ++ ds
  peak : r.pieced.peak ≤ bufsiz.size

/-- The large path sends what the buffer would, and never overruns it. -/
def Request.Agrees (r : Request) (bufsiz : BufSiz) : Prop :=
  r.pieced.sent = r.buffered.sent ∧ r.pieced.peak ≤ bufsiz.size

theorem Request.Writes.agrees_iff {r : Request} {bufsiz : BufSiz} {o : Out} {cs ds : Bytes}
    (h : r.Writes bufsiz o cs ds) : r.Agrees bufsiz ↔ ds = cs := by
  rw [Request.Agrees, h.buffered, h.pieced, List.append_cancel_left_eq]
  exact and_iff_left h.peak

/-- A request given by what its buffered way emits and the arguments of the other one. -/
theorem writes_of_emits {bufsiz : BufSiz} {buflen : ℕ} {o : Out} (hroom : Room bufsiz.size buflen o)
    {f : Out → Out} {cs : Bytes} (hf : Emits f cs) (args : List OverArg) (fits : Bool) :
    Request.Writes ⟨fits, flush (f o), putOver bufsiz buflen args o⟩ bufsiz o cs
      (args.flatMap fun a => ndata a.data a.len) := by
  have hover := putOver_spec bufsiz args hroom
  exact ⟨hf.stream o, hover.1, hover.2.2⟩

@[simp] theorem ndata_intData (host : ByteOrder) (c : ℤ) :
    ndata (some (intData host c)) intLen = intData host c := by
  cases host <;> rfl

/-! ## Agreement -/

section Agreement

variable (host : ByteOrder) (bufsiz : BufSiz) (o : Out)

/-- Strings are sent one behind the other in both ways. -/
theorem emits_strings (args : List OverArg) :
    Emits (fun o => args.foldl (fun o a => putString a.data a.len o) o)
      (args.flatMap fun a => ndata a.data a.len) := by
  induction args with
  | nil => exact emits_id
  | cons a args ih => exact ih.comp (emits_putString a.data a.len)

theorem strings_agree {bufsiz : BufSiz} {buflen : ℕ} {o : Out}
    (hroom : Room bufsiz.size buflen o) (args : List OverArg) (fits : Bool) :
    Request.Agrees ⟨fits, flush (args.foldl (fun o a => putString a.data a.len o) o),
      putOver bufsiz buflen args o⟩ bufsiz :=
  (writes_of_emits hroom (emits_strings args) args fits).agrees_iff.mpr rfl

theorem clauseRequest_agrees (cmd : ℤ) (yomi : Bytes) (len : ℤ) :
    (clauseRequest bufsiz o cmd yomi len).Agrees bufsiz :=
  strings_agree (room_putInt bufsiz len cmd o) [⟨some yomi, len.toNat⟩, ⟨none, 1⟩] _

theorem tangoRequest_agrees_iff (cmd dicid : ℤ) (yomi kanji : Bytes) (code : ℤ) :
    (tangoRequest host bufsiz o cmd dicid yomi kanji code).Agrees bufsiz ↔
      intData host code = intData .big code := by
  have hf := (emits_putInt code).comp ((emits_putString (some kanji) (sstrlen kanji + 1)).comp
    (emits_putString (some yomi) (sstrlen yomi + 1)))
  refine (writes_of_emits (room_putInt bufsiz dicid cmd o) hf
    [⟨some yomi, sstrlen yomi + 1⟩, ⟨some kanji, sstrlen kanji + 1⟩,
      ⟨some (intData host code), intLen⟩] _).agrees_iff.trans ?_
  simp

theorem accessRequest_agrees_iff (path : Bytes) (mode : ℤ) :
    (sj3Access host bufsiz o path mode).Agrees bufsiz ↔
      intData host mode = intData .big mode := by
  have hf := (emits_putInt mode).comp (emits_putString (some path) (sstrlen path + 1))
  refine (writes_of_emits (room_putCmd bufsiz 84 o) hf
    [⟨some path, sstrlen path + 1⟩, ⟨some (intData host mode), intLen⟩] _).agrees_iff.trans ?_
  simp

/-- The last number of a new file does not go out on the large path. -/
theorem makeFileRequest_not_agrees (cmd : ℤ) (path : Bytes) (n1 n2 n3 : ℤ) :
    ¬ (makeFileRequest host bufsiz o cmd path n1 n2 n3).Agrees bufsiz := by
  have hf := (emits_putInt n3).comp ((emits_putInt n2).comp ((emits_putInt n1).comp
    (emits_putString (some path) (sstrlen path + 1))))
  intro hagrees
  have hdata := (writes_of_emits (room_putCmd bufsiz cmd o) hf
    [⟨some path, sstrlen path + 1⟩, ⟨some (intData host n1), intLen⟩,
      ⟨some (intData host n2), intLen⟩, ⟨some (intData host n3), 0⟩] _).agrees_iff.mp hagrees
  have hlen := congrArg List.length hdata
  simp [length_intData, intLen] at hlen

/-- Where the numbers behind the strings of a request are the same in both ways. -/
def Call.IntegersAgree : Call → Prop
  | .tangoTouroku _ _ _ _ code => intData host code = intData .big code
  | .tangoSakujo _ _ _ _ code => intData host code = intData .big code
  | .access _ mode => intData host mode = intData .big mode
  | .makeDictFile _ _ _ _ => False
  | .makeStudyFile _ _ _ _ => False
  | _ => True

theorem Call.agrees_iff (call : Call) :
    (call.request host bufsiz o).Agrees bufsiz ↔ call.IntegersAgree host := by
  cases call with
  | makeConnection version hostname user prog =>
      exact iff_of_true (strings_agree (room_putInt bufsiz version 1 o)
        [⟨some hostname, sstrlen hostname + 1⟩, ⟨some user, sstrlen user + 1⟩,
          ⟨some prog, sstrlen prog + 1⟩] _) trivial
  | openDictionary dictname password =>
      exact iff_of_true (strings_agree (room_putCmd bufsiz 11 o)
        [⟨some dictname, sstrlen dictname + 1⟩, ⟨password, _⟩] _) trivial
  | openStudyFile stdyname password =>
      exact iff_of_true (strings_agree (room_putCmd bufsiz 21 o)
        [⟨some stdyname, sstrlen stdyname + 1⟩, ⟨some password, sstrlen password + 1⟩] _)
        trivial
  | ikkatuHenkan mb_flag src =>
      exact iff_of_true (strings_agree (room_putCmd bufsiz _ o)
        [⟨some src, sstrlen src + 1⟩] _) trivial
  | bunsetuHenkan mb_flag yomi len =>
      exact iff_of_true (clauseRequest_agrees bufsiz o _ yomi len) trivial
  | bunsetuKouhosuu mb_flag yomi len =>
      exact iff_of_true (clauseRequest_agrees bufsiz o _ yomi len) trivial
  | bunsetuZenkouho mb_flag yomi len =>
      exact iff_of_true (clauseRequest_agrees bufsiz o _ yomi len) trivial
  | tangoGakusyuu stdy stdy_size =>
      exact iff_of_true (strings_agree (room_putCmd bufsiz 61 o) [⟨some stdy, stdy_size⟩] _)
        trivial
  | bunsetuGakusyuu mb_flag yomi1 yomi2 stdy stdy_size =>
      exact iff_of_true (strings_agree (room_putCmd bufsiz _ o)
        [⟨some yomi1, sstrlen yomi1 + 1⟩, ⟨some yomi2, sstrlen yomi2 + 1⟩,
          ⟨some stdy, stdy_size⟩] _) trivial
  | tangoTouroku mb_flag dicid yomi kanji code =>
      exact tangoRequest_agrees_iff host bufsiz o _ dicid yomi kanji code
  | tangoSakujo mb_flag dicid yomi kanji code =>
      exact tangoRequest_agrees_iff host bufsiz o _ dicid yomi kanji code
  | makeDictFile path idxlen seglen segnum =>
      exact iff_false_intro
        (makeFileRequest_not_agrees host bufsiz o 81 path idxlen seglen segnum)
  | makeStudyFile path stynum clstep cllen =>
      exact iff_false_intro
        (makeFileRequest_not_agrees host bufsiz o 82 path stynum clstep cllen)
  | makeDirectory path =>
      exact iff_of_true (strings_agree (room_putCmd bufsiz 83 o)
        [⟨some path, sstrlen path + 1⟩] _) trivial
  | access path mode =>
      exact accessRequest_agrees_iff host bufsiz o path mode

/-- A call that does not fit into the buffer sends what it would have sent through it
exactly if the numbers behind its strings are the same in both ways. -/
theorem request_over_agrees_iff (call : Call) :
    ((call.request host bufsiz o).fits = false →
        (call.request host bufsiz o).Agrees bufsiz) ↔
      (call.request host bufsiz o).fits = true ∨ call.IntegersAgree host := by
  rw [call.agrees_iff host bufsiz o]
  cases (call.request host bufsiz o).fits with
  | false => simp
  | true => simp

end Agreement

/-- A path of 300 characters and the mode 4 from a little-endian host. -/
theorem request_over_not_agrees :
    ¬ ∀ host bufsiz o (call : Call), (call.request host bufsiz o).fits = false →
      (call.request host bufsiz o).Agrees bufsiz := by
  intro h
  have hlen : sstrlen (List.replicate 300 0x61) = 300 := by
    rw [sstrlen_eq_length fun h => absurd (List.eq_of_mem_replicate h) (by decide),
      List.length_replicate]
  have hbad := h .little ⟨256, Nat.le_refl _⟩ ⟨[], [], 0⟩
    (.access (List.replicate 300 0x61) 4)
    (by rw [Call.request, sj3Access, hlen]; rfl)
  have hdata := (accessRequest_agrees_iff _ _ _ _ _).mp hbad
  revert hdata
  decide

end Sj3
