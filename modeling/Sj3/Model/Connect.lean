import Mathlib.Logic.Function.Basic
import Sj3.Model.Text

/-! # Connections

The request that connects a client (`execute.c`), up to the work area that it allocates. A
pointer is a number; what the allocator, the password database and the socket say comes with the
request. -/

namespace Sj3.Connect

/-- A user and a group. -/
structure Ugid where
  uid : ℕ
  gid : ℕ
  deriving DecidableEq, Repr

/-- `lock` is none when it is `NOTLOCKED`. What follows is all zero at first. -/
structure WorkArea where
  lock : Option ℕ
  refcnt : ℤ
  deriving DecidableEq, Repr

structure Client where
  host : Bytes
  user : Bytes
  prog : Bytes
  work : Option ℕ
  version : Int16
  defChar : UInt8 × UInt8
  uid : ℕ
  deriving DecidableEq, Repr

/-- `worklist` are the work areas along their links, and `workBase` is the one that holds
`work_base`. -/
structure State where
  area : ℕ → Option WorkArea
  unused : ℕ
  worklist : List ℕ
  workBase : Option ℕ
  client : ℕ → Client

/-- What a client asks for. The strings are as they stand in their buffers. -/
structure Request where
  version : ℤ
  hostname : Bytes
  username : Bytes
  progname : Bytes
  deriving DecidableEq, Repr

/-- An entry of `allow_user_head`. -/
structure AllowUser where
  username : Bytes
  hostname : Bytes
  deriving DecidableEq, Repr

/-- The settings of the server, and what it finds out on the way: whether there is memory, who
has which name, and who is at the other end of the socket. -/
structure Env where
  allowUserHead : List AllowUser
  strictAuthEnable : Bool
  room : Bool
  getpwnam : Bytes → Option Ugid
  peer : Ugid

inductive Refusal where
  | alreadyConnected
  | differentVersion
  | noHostName
  | noUserName
  | notAllowedUser
  | notEnoughMemory
  deriving DecidableEq, Repr

/-! ## Users -/

def asterisk : UInt8 := 0x2a
def question : UInt8 := 0x3f

/-- A pattern at its end matches whatever follows. -/
def strMatch : Bytes → Bytes → Bool
  | s, [] => s.isEmpty
  | [], _ :: _ => true
  | c :: s, b :: d =>
      if c = asterisk then
        let s' := s.dropWhile (· = asterisk)
        if s'.isEmpty then true
        else (b :: d).tails.any fun t => !t.isEmpty && strMatch s' t
      else if c ≠ question ∧ c ≠ b then false
      else strMatch s d
termination_by s => s.length
decreasing_by
  · exact Nat.lt_succ_of_le (List.dropWhile_sublist _).length_le
  · exact Nat.lt_succ_self s.length

def checkUser (env : Env) (user host : Bytes) : Bool :=
  env.allowUserHead.isEmpty ||
    env.allowUserHead.any fun np => strMatch np.username user && strMatch np.hostname host

/-! ## Work areas -/

def State.allocWorkarea (s : State) (room : Bool) : Option (ℕ × State) :=
  if room then
    some (s.unused, { s with
      area := Function.update s.area s.unused (some ⟨none, 1⟩)
      unused := s.unused + 1
      worklist := s.unused :: s.worklist
      workBase := some s.unused })
  else none

/-! ## Requests -/

def sj3servVersionNo : ℤ := 2

def defaultchar : UInt8 × UInt8 := (0x81, 0x40)

/-- What fits in an array with its terminator. -/
def strlcpy (src : Bytes) (size : ℕ) : Bytes := src.take (size - 1)

def maxhostnamelen : ℕ := 256
def maxlogname : ℕ := 32

/-- `FILENAME_MAX` of the C library. -/
def filenameMax : ℕ := 4096

/-- What `execute_cmd` does in front of every request. -/
def State.setup (s : State) (fd : ℕ) : State := { s with workBase := (s.client fd).work }

def execConnect (env : Env) (s : State) (fd : ℕ) (req : Request) :
    State × Except Refusal ℤ :=
  if (s.client fd).work ≠ none then (s, .error .alreadyConnected)
  else if req.version < 0 then (s, .error .differentVersion)
  else if req.hostname = [] then (s, .error .noHostName)
  else if req.username = [] then (s, .error .noUserName)
  else if checkUser env req.username req.hostname = false then (s, .error .notAllowedUser)
  else
    match s.allocWorkarea env.room with
    | none => (s, .error .notEnoughMemory)
    | some (wp, s) =>
        match env.getpwnam req.username with
        | none => (s, .error .notAllowedUser)
        | some ugid =>
            if env.strictAuthEnable ∧ (ugid.uid ≠ env.peer.uid ∨ ugid.gid ≠ env.peer.gid) then
              (s, .error .notAllowedUser)
            else
              let cli : Client :=
                { host := strlcpy req.hostname maxhostnamelen
                  user := strlcpy req.username maxlogname
                  prog := strlcpy req.progname filenameMax
                  work := some wp
                  version := Int16.ofInt req.version
                  defChar := defaultchar
                  uid := ugid.uid }
              ({ s with client := Function.update s.client fd cli },
                .ok (if req.version = 1 then 0 else -sj3servVersionNo))

/-- What every other request looks at: there is no work area, and without one the client is
told that it is not connected. -/
def State.NotConnected (s : State) (fd : ℕ) : Prop :=
  (s.setup fd).workBase = none ∧ (s.client fd).work = none

instance (s : State) (fd : ℕ) : Decidable (s.NotConnected fd) :=
  inferInstanceAs (Decidable (_ ∧ _))

end Sj3.Connect
