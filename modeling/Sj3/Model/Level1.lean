import Sj3.General.BufferedWriter
import Sj3.Model.Text

/-! # Requests of the client library

The requests of `level1.c` that are written in two ways, depending on whether their
arguments fit into the output buffer. Every `write` succeeds, and strings are shorter than
an `int` can count. -/

namespace Sj3

open BufferedWriter

def cmdLen : ℕ := 4
def intLen : ℕ := 4
def sj3servVersionNo : ℤ := 2

inductive MbCode where
  | sjis
  | euc
  deriving DecidableEq, Repr

/-- How the client's host lays out an `int`. -/
inductive ByteOrder where
  | little
  | big
  deriving DecidableEq, Repr

/-- `BUFSIZ`, which is at least 256 in every C library. -/
structure BufSiz where
  size : ℕ
  large : 256 ≤ size

/-- `putbuf` and the stream to the server. -/
abbrev Out := BufWriter UInt8

/-! ## Writing -/

/-- What of an `int` is left in a `u_char`. -/
def uchar (c : ℤ) : UInt8 := UInt8.ofNat (c % 0x100).toNat

def putByte (c : ℤ) (o : Out) : Out := put (uchar c) o

def putInt (c : ℤ) (o : Out) : Out :=
  let o := putByte (c / 2 ^ (8 * 3)) o
  let o := putByte (c / 2 ^ (8 * 2)) o
  let o := putByte (c / 2 ^ (8 * 1)) o
  putByte c o

/-- Each command starts with an empty buffer. -/
def putCmd (cmd : ℤ) (o : Out) : Out := putInt cmd { o with pending := [], peak := 0 }

/-- The pointer behind the `n` bytes written, too; in place of the null pointer zeros are
written. -/
def putNdata (p : Option Bytes) : ℕ → Out → Option Bytes × Out
  | 0, o => (p, o)
  | n + 1, o =>
      match p with
      | some p => putNdata (some p.tail) n (put (p.headD 0) o)
      | none => putNdata none n (put 0 o)

def putString (p : Option Bytes) (n : ℕ) (o : Out) : Out := (putNdata p n o).2

/-- The memory an `int` of the client lies in. -/
def intData (host : ByteOrder) (c : ℤ) : Bytes :=
  match host with
  | .big => [uchar (c / 2 ^ (8 * 3)), uchar (c / 2 ^ (8 * 2)), uchar (c / 2 ^ (8 * 1)), uchar c]
  | .little => [uchar c, uchar (c / 2 ^ (8 * 1)), uchar (c / 2 ^ (8 * 2)), uchar (c / 2 ^ (8 * 3))]

/-- An argument of `put_over`; the function that writes it is always `put_ndata`. -/
structure OverArg where
  data : Option Bytes
  len : ℕ

/-- The loop over the pieces of an argument; `turns` is more than it takes. -/
def overLoop (bufsiz : ℕ) : ℕ → OverArg → ℕ → Out → ℕ × Out
  | 0, _, buflen, o => (buflen, o)
  | turns + 1, a, buflen, o =>
      if a.len > 0 then
        let piece := putNdata a.data (if a.len < buflen then a.len else buflen) o
        overLoop bufsiz turns ⟨piece.1, a.len - buflen⟩ bufsiz (flush piece.2)
      else (buflen, o)

def overArgs (bufsiz : ℕ) : List OverArg → ℕ → Out → ℕ × Out
  | [], buflen, o => (buflen, o)
  | a :: args, buflen, o =>
      if a.len < buflen then
        overArgs bufsiz args (buflen - a.len) (putNdata a.data a.len o).2
      else
        let i := overLoop bufsiz (a.len + 1) a buflen o
        overArgs bufsiz args i.1 i.2

def putOver (bufsiz : BufSiz) (buflen : ℕ) (args : List OverArg) (o : Out) : Out :=
  let i := overArgs bufsiz.size args buflen o
  if i.1 ≠ bufsiz.size then flush i.2 else i.2

/-! ## Requests -/

/-- A request in both ways, and whether it is sent through the buffer. -/
structure Request where
  fits : Bool
  buffered : Out
  pieced : Out

section Requests

variable (host : ByteOrder) (bufsiz : BufSiz) (mb_flag : MbCode) (o : Out)

def mbCmd (sjis euc : ℤ) : ℤ :=
  match mb_flag with
  | .sjis => sjis
  | .euc => euc

/-- The connection request, which is repeated with the version 1. -/
def sj3MakeConnection (version : ℤ) (host user prog : Bytes) : Request :=
  let hostlen := sstrlen host + 1
  let userlen := sstrlen user + 1
  let proglen := sstrlen prog + 1
  let datalen := hostlen + userlen + proglen
  let buflen := bufsiz.size - cmdLen - intLen
  let o := putInt version (putCmd 1 o)
  { fits := datalen ≤ buflen
    buffered := flush (putString (some prog) proglen (putString (some user) userlen
      (putString (some host) hostlen o)))
    pieced := putOver bufsiz buflen
      [⟨some host, hostlen⟩, ⟨some user, userlen⟩, ⟨some prog, proglen⟩] o }

def sj3OpenDictionary (dictname : Bytes) (password : Option Bytes) : Request :=
  let dictlen := sstrlen dictname + 1
  let passlen := (match password with | some p => sstrlen p | none => 0) + 1
  let datalen := dictlen + passlen
  let buflen := bufsiz.size - cmdLen
  let o := putCmd 11 o
  { fits := datalen < buflen
    buffered := flush (putString password passlen (putString (some dictname) dictlen o))
    pieced := putOver bufsiz buflen [⟨some dictname, dictlen⟩, ⟨password, passlen⟩] o }

def sj3OpenStudyFile (stdyname password : Bytes) : Request :=
  let stdylen := sstrlen stdyname + 1
  let passlen := sstrlen password + 1
  let datalen := stdylen + passlen
  let buflen := bufsiz.size - cmdLen
  let o := putCmd 21 o
  { fits := datalen < buflen
    buffered := flush (putString (some password) passlen (putString (some stdyname) stdylen o))
    pieced := putOver bufsiz buflen [⟨some stdyname, stdylen⟩, ⟨some password, passlen⟩] o }

def sj3IkkatuHenkan (src : Bytes) : Request :=
  let srclen := sstrlen src + 1
  let buflen := bufsiz.size - cmdLen
  let o := putCmd (mbCmd mb_flag 41 111) o
  { fits := srclen < buflen
    buffered := flush (putString (some src) srclen o)
    pieced := putOver bufsiz buflen [⟨some src, srclen⟩] o }

/-- A request about a clause of `len` bytes, to which a terminator is added. -/
def clauseRequest (cmd : ℤ) (yomi : Bytes) (len : ℤ) : Request :=
  let buflen := bufsiz.size - cmdLen - intLen
  let o := putInt len (putCmd cmd o)
  { fits := len + 1 ≤ buflen
    buffered := flush (putByte 0 (putString (some yomi) len.toNat o))
    pieced := putOver bufsiz buflen [⟨some yomi, len.toNat⟩, ⟨none, 1⟩] o }

def sj3BunsetuHenkan (yomi : Bytes) (len : ℤ) : Request :=
  clauseRequest bufsiz o (mbCmd mb_flag 51 112) yomi len

def sj3BunsetuKouhosuu (yomi : Bytes) (len : ℤ) : Request :=
  clauseRequest bufsiz o (mbCmd mb_flag 55 116) yomi len

def sj3BunsetuZenkouho (yomi : Bytes) (len : ℤ) : Request :=
  clauseRequest bufsiz o (mbCmd mb_flag 54 115) yomi len

def sj3TangoGakusyuu (stdy : Bytes) (stdy_size : ℕ) : Request :=
  let buflen := bufsiz.size - cmdLen
  let o := putCmd 61 o
  { fits := stdy_size ≤ buflen
    buffered := flush (putString (some stdy) stdy_size o)
    pieced := putOver bufsiz buflen [⟨some stdy, stdy_size⟩] o }

def sj3BunsetuGakusyuu (yomi1 yomi2 stdy : Bytes) (stdy_size : ℕ) : Request :=
  let yomilen1 := sstrlen yomi1 + 1
  let yomilen2 := sstrlen yomi2 + 1
  let datalen := yomilen1 + yomilen2 + stdy_size
  let buflen := bufsiz.size - cmdLen
  let o := putCmd (mbCmd mb_flag 62 117) o
  { fits := datalen ≤ buflen
    buffered := flush (putString (some stdy) stdy_size (putString (some yomi2) yomilen2
      (putString (some yomi1) yomilen1 o)))
    pieced := putOver bufsiz buflen
      [⟨some yomi1, yomilen1⟩, ⟨some yomi2, yomilen2⟩, ⟨some stdy, stdy_size⟩] o }

/-- A request about a word of a dictionary. -/
def tangoRequest (cmd dicid : ℤ) (yomi kanji : Bytes) (code : ℤ) : Request :=
  let yomilen := sstrlen yomi + 1
  let kanjilen := sstrlen kanji + 1
  let datalen := yomilen + kanjilen + intLen
  let buflen := bufsiz.size - cmdLen - intLen
  let o := putInt dicid (putCmd cmd o)
  { fits := datalen ≤ buflen
    buffered := flush (putInt code (putString (some kanji) kanjilen
      (putString (some yomi) yomilen o)))
    pieced := putOver bufsiz buflen
      [⟨some yomi, yomilen⟩, ⟨some kanji, kanjilen⟩, ⟨some (intData host code), intLen⟩] o }

def sj3TangoTouroku (dicid : ℤ) (yomi kanji : Bytes) (code : ℤ) : Request :=
  tangoRequest host bufsiz o (mbCmd mb_flag 71 118) dicid yomi kanji code

def sj3TangoSakujo (dicid : ℤ) (yomi kanji : Bytes) (code : ℤ) : Request :=
  tangoRequest host bufsiz o (mbCmd mb_flag 72 119) dicid yomi kanji code

/-- A request for a new file. The large path passes the length 0 for the last number. -/
def makeFileRequest (cmd : ℤ) (path : Bytes) (n1 n2 n3 : ℤ) : Request :=
  let pathlen := sstrlen path + 1
  let datalen := pathlen + intLen + intLen + intLen
  let buflen := bufsiz.size - cmdLen
  let o := putCmd cmd o
  { fits := datalen ≤ buflen
    buffered := flush (putInt n3 (putInt n2 (putInt n1 (putString (some path) pathlen o))))
    pieced := putOver bufsiz buflen
      [⟨some path, pathlen⟩, ⟨some (intData host n1), intLen⟩,
        ⟨some (intData host n2), intLen⟩, ⟨some (intData host n3), 0⟩] o }

def sj3MakeDictFile (path : Bytes) (idxlen seglen segnum : ℤ) : Request :=
  makeFileRequest host bufsiz o 81 path idxlen seglen segnum

def sj3MakeStudyFile (path : Bytes) (stynum clstep cllen : ℤ) : Request :=
  makeFileRequest host bufsiz o 82 path stynum clstep cllen

def sj3MakeDirectory (path : Bytes) : Request :=
  let pathlen := sstrlen path + 1
  let buflen := bufsiz.size - cmdLen
  let o := putCmd 83 o
  { fits := pathlen ≤ buflen
    buffered := flush (putString (some path) pathlen o)
    pieced := putOver bufsiz buflen [⟨some path, pathlen⟩] o }

def sj3Access (path : Bytes) (mode : ℤ) : Request :=
  let pathlen := sstrlen path + 1
  let datalen := pathlen + intLen
  let buflen := bufsiz.size - cmdLen
  let o := putCmd 84 o
  { fits := datalen ≤ buflen
    buffered := flush (putInt mode (putString (some path) pathlen o))
    pieced := putOver bufsiz buflen [⟨some path, pathlen⟩, ⟨some (intData host mode), intLen⟩] o }

end Requests

/-- The calls of the library that are written in two ways. -/
inductive Call where
  | makeConnection (version : ℤ) (host user prog : Bytes)
  | openDictionary (dictname : Bytes) (password : Option Bytes)
  | openStudyFile (stdyname password : Bytes)
  | ikkatuHenkan (mb_flag : MbCode) (src : Bytes)
  | bunsetuHenkan (mb_flag : MbCode) (yomi : Bytes) (len : ℤ)
  | bunsetuKouhosuu (mb_flag : MbCode) (yomi : Bytes) (len : ℤ)
  | bunsetuZenkouho (mb_flag : MbCode) (yomi : Bytes) (len : ℤ)
  | tangoGakusyuu (stdy : Bytes) (stdy_size : ℕ)
  | bunsetuGakusyuu (mb_flag : MbCode) (yomi1 yomi2 stdy : Bytes) (stdy_size : ℕ)
  | tangoTouroku (mb_flag : MbCode) (dicid : ℤ) (yomi kanji : Bytes) (code : ℤ)
  | tangoSakujo (mb_flag : MbCode) (dicid : ℤ) (yomi kanji : Bytes) (code : ℤ)
  | makeDictFile (path : Bytes) (idxlen seglen segnum : ℤ)
  | makeStudyFile (path : Bytes) (stynum clstep cllen : ℤ)
  | makeDirectory (path : Bytes)
  | access (path : Bytes) (mode : ℤ)

def Call.request (host : ByteOrder) (bufsiz : BufSiz) (o : Out) : Call → Request
  | .makeConnection version host user prog => sj3MakeConnection bufsiz o version host user prog
  | .openDictionary dictname password => sj3OpenDictionary bufsiz o dictname password
  | .openStudyFile stdyname password => sj3OpenStudyFile bufsiz o stdyname password
  | .ikkatuHenkan mb_flag src => sj3IkkatuHenkan bufsiz mb_flag o src
  | .bunsetuHenkan mb_flag yomi len => sj3BunsetuHenkan bufsiz mb_flag o yomi len
  | .bunsetuKouhosuu mb_flag yomi len => sj3BunsetuKouhosuu bufsiz mb_flag o yomi len
  | .bunsetuZenkouho mb_flag yomi len => sj3BunsetuZenkouho bufsiz mb_flag o yomi len
  | .tangoGakusyuu stdy stdy_size => sj3TangoGakusyuu bufsiz o stdy stdy_size
  | .bunsetuGakusyuu mb_flag yomi1 yomi2 stdy stdy_size =>
      sj3BunsetuGakusyuu bufsiz mb_flag o yomi1 yomi2 stdy stdy_size
  | .tangoTouroku mb_flag dicid yomi kanji code =>
      sj3TangoTouroku host bufsiz mb_flag o dicid yomi kanji code
  | .tangoSakujo mb_flag dicid yomi kanji code =>
      sj3TangoSakujo host bufsiz mb_flag o dicid yomi kanji code
  | .makeDictFile path idxlen seglen segnum =>
      sj3MakeDictFile host bufsiz o path idxlen seglen segnum
  | .makeStudyFile path stynum clstep cllen =>
      sj3MakeStudyFile host bufsiz o path stynum clstep cllen
  | .makeDirectory path => sj3MakeDirectory bufsiz o path
  | .access path mode => sj3Access host bufsiz o path mode

end Sj3
