import PipRiot.Lib.Base64
import PipRiot.Tinyfs.Layout

/-!
# The commands that load a binary

`mkbin` allocates a file, `ldbin` writes a chunk of base 64 to it, `rm` and
`fmtbin` delete. The place of the next chunk is one variable of `ldbin.c` for all
files. `given` is no variable of the program: it records, file by file in the
order of the region, what has been decoded for the file since its creation.
-/

namespace PipRiot.Loader

open Tinyfs

inductive Message
  | usageLdbin
  | usageMkbin
  | usageRm
  | noSuchFile
  | invalidChunk
  | anotherFile
  | nameUsed
  | invalidSize
  | invalidRights
  | notCreated
  | notRemoved

structure State where
  flash : Flash
  offset : Nat
  given : List (List Byte)

/-- The state behind a command and what it has printed; `none` when an assertion
fails. -/
abbrev Result := Option (State × List Message)

/-! ## Chunks -/

def b64 : List Byte :=
  "ABCDEFGHIJKLMNOPQRSTUVWXYZabcdefghijklmnopqrstuvwxyz0123456789+/".toList.map fun c => BitVec.ofNat 8 c.toNat

def strchr (c : Byte) : Option Nat := b64.findIdx? (· = c)

def valid (c : Byte) : Bool :=
  (65 ≤ c && c ≤ 90) || (97 ≤ c && c ≤ 122) || (48 ≤ c && c ≤ 57) || (c == 43 || c == 47 || c == 61)

def checkChunk (chunk : List Byte) : Bool :=
  chunk.length != 0 && chunk.length % 4 == 0 && chunk.all valid

/-- One turn of `b64decode`; a padding character in the first two places is undefined
behaviour. -/
def decodeQuad (c0 c1 c2 c3 : Byte) : Option (List Byte) :=
  match strchr c0, strchr c1 with
  | some a, some b =>
    let bytes := a <<< 18 ||| b <<< 12
    let (bytes, r) := match strchr c2 with
      | some c => (bytes ||| c <<< 6, 3)
      | none => (bytes, 2)
    let (bytes, r) := match strchr c3 with
      | some d => (bytes ||| d, r)
      | none => (bytes, r - 1)
    some (([bytes >>> 16, bytes >>> 8, bytes].map fun x => BitVec.ofNat 8 (x &&& 0xff)).take r)
  | _, _ => none

section
variable (v : Volume)

def b64decode (file : Nat) : List Byte → Flash → Nat → Option (Flash × Nat)
  | c0 :: c1 :: c2 :: c3 :: chunk, m, offset =>
    if offset < sizeAt m file then
      match decodeQuad c0 c1 c2 c3 with
      | none => none
      | some buf =>
        match fileWrite v m file offset buf with
        | none => none
        | some (_, m) => b64decode file chunk m ((offset + buf.length) % 2 ^ 32)
    else some (m, offset)
  | _, m, offset => some (m, offset)

def decoded (chunk : List Byte) : Option (List Byte) := Base64.decode strchr 61 chunk

/-! ## Loading -/

variable (m : Flash)

def files : List Nat := (enumerate v m).getD []

def isLoading (file : Nat) : Bool := statusAt m file == Status.loading.code

def countLoading : Nat := (files v m).countP (isLoading m)

def startLoading (file : Nat) : Option Flash :=
  if statusAt m file = Status.created.code then
    match fileStatus v m file .loading with
    | some (0, m) => some m
    | _ => none
  else some m

def finishLoading (offset file : Nat) : Option (Flash × Nat) :=
  if sizeAt m file = offset then
    match fileStatus v m file .loaded with
    | some (0, m) => some (m, 0)
    | _ => none
  else some (m, offset)

variable (s : State)

def load (file : Nat) (chunk : List Byte) : Option (Flash × Nat) :=
  match startLoading v s.flash file with
  | none => none
  | some m =>
    match b64decode v file chunk m s.offset with
    | none => none
    | some (m, offset) => finishLoading v m offset file

def ldbin : List CString → Result
  | name :: chunk :: _ =>
    match fileSearch v s.flash name with
    | none => none
    | some none => some (s, [.noSuchFile])
    | some (some file) =>
      if checkChunk chunk.bytes = false then some (s, [.invalidChunk])
      else if 1 < countLoading v s.flash then none
      else if countLoading v s.flash = 1 ∧ isLoading s.flash file = false then some (s, [.anotherFile])
      else
        (load v s file chunk.bytes).map fun r =>
          (⟨r.1, r.2, s.given.modify ((files v s.flash).idxOf file) (· ++ (decoded chunk.bytes).getD [])⟩, [])
  | _ => some (s, [.usageLdbin])

/-! ## The other commands -/

/-- What `strtol` answers: the value, whether it has set `errno`, and the rest of the
string, `none` if the end pointer is the string itself. -/
structure Strtol where
  value : Int
  errno : Bool
  rest : Option (List Byte)

variable (strtol : List Byte → Strtol)

def convert (str : List Byte) : Option Nat :=
  let l := strtol str
  if l.value = -2 ^ 31 ∧ l.errno then none
  else if l.value = 2 ^ 31 - 1 ∧ l.errno then none
  else
    match l.rest with
    | none => none
    | some rest =>
      if (l.value % 2 ^ 32).toNat > 2 ^ 32 - 1 then none
      else if l.value < 0 then none
      else if rest ≠ [] then none
      else some l.value.toNat

def mkbin (s : State) : List CString → Result
  | name :: size :: exec :: _ =>
    match fileSearch v s.flash name with
    | none => none
    | some (some _) => some (s, [.nameUsed])
    | some none =>
      match convert strtol size.bytes, convert strtol exec.bytes with
      | none, _ => some (s, [.invalidSize])
      | some _, none => some (s, [.invalidRights])
      | some size, some exec =>
        if exec ≠ 0 ∧ exec ≠ 1 then some (s, [.invalidRights])
        else
          match createFile v s.flash name size exec .created with
          | none => none
          | some (none, m) => some (⟨m, s.offset, s.given⟩, [.notCreated])
          | some (some _, m) => some (⟨m, s.offset, s.given ++ [[]]⟩, [])
  | _ => some (s, [.usageMkbin])

def removeOne (name : CString) : Result :=
  match fileSearch v s.flash name, remove v s.flash name with
  | some found, some (r, m) =>
    let given := match found with
      | some file => s.given.eraseIdx ((files v s.flash).idxOf file)
      | none => s.given
    some (⟨m, s.offset, given⟩, if r ≠ 0 then [.notRemoved] else [])
  | _, _ => none

def removeAll : State → List CString → Result
  | s, [] => some (s, [])
  | s, name :: names =>
    match removeOne v s name with
    | none => none
    | some (s, out) => (removeAll s names).map fun r => (r.1, out ++ r.2)

def rm : List CString → Result
  | [] => some (s, [.usageRm])
  | names => removeAll v s names

def fmtbin : Result := (format v s.flash).map fun m => (⟨m, s.offset, []⟩, [])

inductive Command
  | mkbin (args : List CString)
  | ldbin (args : List CString)
  | rm (args : List CString)
  | fmtbin

def step (s : State) : Command → Option State
  | .mkbin args => (mkbin v strtol s args).map Prod.fst
  | .ldbin args => (ldbin v s args).map Prod.fst
  | .rm args => (rm v s args).map Prod.fst
  | .fmtbin => (fmtbin v s).map Prod.fst

/-! ## The protocol -/

def Complete : Prop :=
  ∀ i f : Nat, (files v s.flash)[i]? = some f → statusAt s.flash f = Status.loaded.code →
    s.given[i]? = some (slice s.flash (f + 48) (sizeAt s.flash f))

def LoadedKept (s t : State) : Prop :=
  ∀ f ∈ files v s.flash, statusAt s.flash f = Status.loaded.code →
    loadFile t.flash f = loadFile s.flash f ∧
      slice t.flash (f + 48) (sizeAt s.flash f) = slice s.flash (f + 48) (sizeAt s.flash f)

def RoomFor (size : Nat) : Prop :=
  ∀ fs c, Layout v m fs c → c = v.lastPage ∨
    (48 + size ≤ round size ∧ (c + round size < v.lastPage ∨ (fs = [] ∧ c + round size = v.lastPage)))

def RemovesSafely : State → List CString → Prop
  | _, [] => True
  | s, name :: names => (∀ file, fileSearch v s.flash name = some (some file) → isLoading s.flash file = false) ∧
      ∀ t out, removeOne v s name = some (t, out) → RemovesSafely t names

/-- A new file has room for its header and is not the last of several that fill the
region, a chunk goes to a file not loaded yet and within its size, the file being loaded
is not deleted. -/
def Good (s : State) : Command → Prop
  | .mkbin (_ :: size :: _ :: _) =>
    ∀ n, convert strtol size.bytes = some n → 0 < n → n ≤ filesizeMax → RoomFor v s.flash n
  | .ldbin (name :: chunk :: _) => ∃ d, decoded chunk.bytes = some d ∧
      ∀ file, fileSearch v s.flash name = some (some file) →
        (countLoading v s.flash = 1 ∧ isLoading s.flash file = false) ∨
          (statusAt s.flash file ≠ Status.loaded.code ∧ s.offset + d.length ≤ sizeAt s.flash file)
  | .rm names => RemovesSafely v s names
  | .fmtbin => countLoading v s.flash = 0
  | _ => True

end

end PipRiot.Loader
