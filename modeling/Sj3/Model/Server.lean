import Mathlib.Data.Finset.Erase
import Mathlib.Data.Finset.Insert
import Mathlib.Logic.Function.Basic
import Mathlib.Tactic.Common

/-! # Dictionaries of the server

The dictionary files that the server has open (`sdepend.c`), the lists of the clients that
refer to them, and the requests of clients that open, close, lock and change them
(`execute.c`). A pointer is a number that is never used again after its memory has been freed;
`none` is the use of such memory. What the file system and the allocator say comes with each
request. Of a dictionary only what is neither its text nor its place in the file is here. -/

namespace Sj3

/-- `ino_t` -/
abbrev TypeDicID := UInt64

/-- `lock` is a set of descriptors. -/
structure DictFile where
  dicid : TypeDicID
  maxunit : ℕ
  refcnt : ℤ
  lock : List ℕ
  deriving DecidableEq, Repr

/-- The work area of a connection, to which nothing else refers. `lock` is the descriptor that
holds the lock, or none when it is `NOTLOCKED`. -/
structure WorkArea where
  lock : Option ℕ
  dictlist : List ℕ
  deriving DecidableEq, Repr

/-- `work` gives the work area of the client on a descriptor, when it has one. -/
structure Server where
  mem : ℕ → Option DictFile
  unused : ℕ
  dictlink : List ℕ
  client : Finset ℕ
  work : ℕ → Option WorkArea
  globalDictlist : List ℕ

def Server.init : Server := ⟨fun _ => none, 0, [], ∅, fun _ => none, []⟩

/-- A write to a dictionary. -/
def Server.update (s : Server) (a : ℕ) (f : DictFile → DictFile) : Option Server :=
  (s.mem a).map fun d => { s with mem := Function.update s.mem a (some (f d)) }

/-- The first dictionary of a list with an identifier. -/
def Server.findDicid (s : Server) (dicid : TypeDicID) : List ℕ → Option (Option ℕ)
  | [] => some none
  | a :: l => (s.mem a).bind fun d => if d.dicid = dicid then some (some a) else s.findDicid dicid l

/-! ## Dictionary files -/

/-- What there is under a name: an inode, and what can be opened there. The number of segments
is zero when the file cannot be written. -/
structure NamedFile where
  ino : TypeDicID
  maxunit : Option ℕ
  deriving DecidableEq, Repr

def searchSameDict (s : Server) (ino : TypeDicID) : Option (Option ℕ) :=
  s.findDicid ino s.dictlink

def addRef (s : Server) (a : ℕ) : Option Server :=
  s.update a fun d => { d with refcnt := d.refcnt + 1 }

def opendict (s : Server) (file : Option NamedFile) : Option (Server × Option ℕ) :=
  match file with
  | none => some (s, none)
  | some f =>
      (searchSameDict s f.ino).bind fun
        | some a => (addRef s a).map fun s => (s, some a)
        | none =>
            match f.maxunit with
            | none => some (s, none)
            | some maxunit =>
                some ({ s with
                  mem := Function.update s.mem s.unused (some ⟨f.ino, maxunit, 1, []⟩)
                  unused := s.unused + 1
                  dictlink := s.unused :: s.dictlink }, some s.unused)

def closedict (s : Server) (a : ℕ) : Option Server :=
  (s.mem a).map fun d =>
    if d.refcnt - 1 > 0 then
      { s with mem := Function.update s.mem a (some { d with refcnt := d.refcnt - 1 }) }
    else
      { s with mem := Function.update s.mem a none, dictlink := s.dictlink.filter (· ≠ a) }

def lockDict (s : Server) (a fd : ℕ) : Option Server :=
  s.update a fun d => { d with lock := d.lock.insert fd }

def unlockDict (s : Server) (a fd : ℕ) : Option Server :=
  s.update a fun d => { d with lock := d.lock.filter (· ≠ fd) }

def DictFile.isDictLocked (d : DictFile) : Bool := d.lock ≠ []

/-! ## Start -/

def preloadDict : Server → List (Option NamedFile) → Option Server
  | s, [] => some s
  | s, file :: files => (opendict s file).bind fun r => preloadDict r.1 files

/-- Each file comes with whether there is memory for its entry in the list. -/
def preopenDict : Server → List (Option NamedFile × Bool) → Option Server
  | s, [] => some s
  | s, (file, room) :: files =>
      (opendict s file).bind fun
        | (s, none) => preopenDict s files
        | (s, some a) =>
            if room then preopenDict { s with globalDictlist := a :: s.globalDictlist } files
            else (closedict s a).bind fun s => preopenDict s files

def Server.start (preloads : List (Option NamedFile)) (preopens : List (Option NamedFile × Bool)) :
    Option Server :=
  (preloadDict .init preloads).bind fun s => preopenDict s preopens

/-! ## Requests -/

inductive ServError where
  | alreadyConnected
  | notConnected
  | notEnoughMemory
  | badDictID
  | noSuchDict
  | readOnlyDict
  | dictLocked
  | lockedByOther
  | notLocked
  | badYomiString
  | badKanjiString
  /-- the error of another check -/
  | other
  deriving DecidableEq, Repr

/-- `changes` is the answer of a request that goes on to change the dictionary at `a`. -/
inductive ServReply where
  | normalEnd
  | opened (dicid : TypeDicID)
  | changes (a : ℕ)
  | error (e : ServError)
  deriving DecidableEq, Repr

def Server.setWork (s : Server) (fd : ℕ) (w : Option WorkArea) : Server :=
  { s with work := Function.update s.work fd w }

/-- `allowed` is whether the connection passes the checks of the client and finds memory. -/
def execConnect (s : Server) (fd : ℕ) (allowed : Bool) : Option (Server × ServReply) :=
  match s.work fd with
  | some _ => some (s, .error .alreadyConnected)
  | none =>
      if allowed then some (s.setWork fd (some ⟨none, []⟩), .normalEnd)
      else some (s, .error .other)

def closeDictlist (s : Server) (fd : ℕ) (dictl : List ℕ) : Option Server :=
  dictl.foldlM (fun s a => (unlockDict s a fd).bind fun s => closedict s a) s

def freeWorkarea (s : Server) (fd : ℕ) (w : WorkArea) : Option Server :=
  (closeDictlist s fd w.dictlist).map fun s => s.setWork fd none

def execDisconnect (s : Server) (fd : ℕ) : Option (Server × ServReply) :=
  match s.work fd with
  | none => some (s, .error .notConnected)
  | some w => (freeWorkarea s fd w).map fun s => (s, .normalEnd)

/-- An empty list becomes a copy of the global one. -/
def copyGlobal (s : Server) (dictlist : List ℕ) : Option (Server × List ℕ) :=
  if dictlist = [] then (s.globalDictlist.foldlM addRef s).map fun s => (s, s.globalDictlist)
  else some (s, dictlist)

def lockUserDict (s : Server) (fd a : ℕ) : Option Server :=
  (s.mem a).bind fun d => if d.maxunit ≠ 0 then lockDict s a fd else some s

def unlockUserDict (s : Server) (fd a : ℕ) : Option Server :=
  (s.mem a).bind fun d => if d.maxunit ≠ 0 then unlockDict s a fd else some s

/-- `room` is whether there is memory for an entry; there always is for those of the global
list. -/
def execOpendict (s : Server) (fd : ℕ) (file : Option NamedFile) (room : Bool) :
    Option (Server × ServReply) :=
  match s.work fd with
  | none => some (s, .error .notConnected)
  | some w =>
      (opendict s file).bind fun
        | (s, none) => some (s, .error .other)
        | (s, some a) =>
            (copyGlobal s w.dictlist).bind fun (s, dictlist) =>
              if a ∉ dictlist ∧ ¬ room then
                (closedict s a).map fun s =>
                  (s.setWork fd (some { w with dictlist := dictlist }), .error .notEnoughMemory)
              else
                let dictlist := if a ∈ dictlist then dictlist else a :: dictlist
                let s := s.setWork fd (some { w with dictlist := dictlist })
                (if w.lock = some fd then lockUserDict s fd a else some s).bind fun s =>
                  (s.mem a).map fun d => (s, .opened d.dicid)

def execClosedict (s : Server) (fd : ℕ) (id : TypeDicID) : Option (Server × ServReply) :=
  match s.work fd with
  | none => some (s, .error .notConnected)
  | some w =>
      (s.findDicid id w.dictlist).bind fun
        | none => some (s, .error .badDictID)
        | some a =>
            (unlockDict s a fd).bind fun s =>
              (closedict s a).map fun s =>
                (s.setWork fd (some { w with dictlist := w.dictlist.erase a }), .normalEnd)

def execLock (s : Server) (fd : ℕ) : Option (Server × ServReply) :=
  match s.work fd with
  | none => some (s, .error .notConnected)
  | some w =>
      if w.lock ≠ none ∧ w.lock ≠ some fd then some (s, .error .lockedByOther)
      else
        (w.dictlist.foldlM (lockUserDict · fd) (s.setWork fd (some { w with lock := some fd }))).map
          fun s => (s, .normalEnd)

def execUnlock (s : Server) (fd : ℕ) : Option (Server × ServReply) :=
  match s.work fd with
  | none => some (s, .error .notConnected)
  | some w =>
      if w.lock = none then some (s, .error .notLocked)
      else if w.lock ≠ some fd then some (s, .error .lockedByOther)
      else
        (w.dictlist.foldlM (unlockUserDict · fd) (s.setWork fd (some { w with lock := none }))).map
          fun s => (s, .normalEnd)

/-- The checks in front of a change; `err` and `err1` are whether the reading and the word are
too long. -/
def execEditdict (s : Server) (fd : ℕ) (dicid : TypeDicID) (err err1 : Bool) :
    Option (Server × ServReply) :=
  match s.work fd with
  | none => some (s, .error .notConnected)
  | some w =>
      if err then some (s, .error .badYomiString)
      else if err1 then some (s, .error .badKanjiString)
      else
        (s.findDicid dicid w.dictlist).bind fun
          | none => some (s, .error .noSuchDict)
          | some a =>
              (s.mem a).map fun d =>
                if d.maxunit = 0 then (s, .error .readOnlyDict)
                else if d.isDictLocked then (s, .error .dictLocked)
                else (s, .changes a)

def execAdddict (s : Server) (fd : ℕ) (dicid : TypeDicID) (err err1 : Bool) :
    Option (Server × ServReply) := execEditdict s fd dicid err err1

def execDeldict (s : Server) (fd : ℕ) (dicid : TypeDicID) (err err1 : Bool) :
    Option (Server × ServReply) := execEditdict s fd dicid err err1

/-! ## Clients -/

inductive Command where
  | connect (allowed : Bool)
  | disconnect
  | opendict (file : Option NamedFile) (room : Bool)
  | closedict (id : TypeDicID)
  | lock
  | unlock
  | adddict (dicid : TypeDicID) (err err1 : Bool)
  | deldict (dicid : TypeDicID) (err err1 : Bool)
  deriving DecidableEq, Repr

def executeCmd (s : Server) (fd : ℕ) : Command → Option (Server × ServReply)
  | .connect allowed => execConnect s fd allowed
  | .disconnect => execDisconnect s fd
  | .opendict file room => execOpendict s fd file room
  | .closedict id => execClosedict s fd id
  | .lock => execLock s fd
  | .unlock => execUnlock s fd
  | .adddict dicid err err1 => execAdddict s fd dicid err err1
  | .deldict dicid err err1 => execDeldict s fd dicid err err1

/-- A connection on a descriptor, the request of a client, or the end of a connection. -/
inductive ServEvent where
  | connectClient (fd : ℕ)
  | execute (fd : ℕ) (cmd : Command)
  | disconnectClient (fd : ℕ)
  deriving DecidableEq, Repr

/-- The new client has a descriptor that no other has. -/
def connectClient (s : Server) (fd : ℕ) : Server :=
  if fd ∈ s.client then s
  else { s with client := insert fd s.client, work := Function.update s.work fd none }

def disconnectClient (s : Server) (fd : ℕ) : Option Server :=
  (match s.work fd with
    | none => some s
    | some w => freeWorkarea s fd w).map fun s : Server => { s with client := s.client.erase fd }

/-- Only clients send requests. -/
def communicate (s : Server) : ServEvent → Option (Server × Option ServReply)
  | .connectClient fd => some (connectClient s fd, none)
  | .execute fd cmd =>
      if fd ∈ s.client then (executeCmd s fd cmd).map fun r => (r.1, some r.2) else some (s, none)
  | .disconnectClient fd =>
      if fd ∈ s.client then (disconnectClient s fd).map fun s => (s, none) else some (s, none)

end Sj3
