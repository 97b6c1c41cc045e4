import PipRiot.Lib.Loop
import PipRiot.Tinyfs.Flashpage

/-!
# The file system

`gnrc_xipfs.c`. A file is a header of 48 bytes and its content, rounded up to
whole pages; the headers form a list through their `next` fields, which ends in
an erased page or, in a full region, at the first page again. Functions that
program or erase return `none` when an assertion fails; a walk that does not
end within as many turns as there are pointers never ends and is `none` too.
-/

namespace PipRiot.Tinyfs

/-! ## Files -/

def freePage : Nat := 0xffffffff
def filesizeMax : Nat := 2 ^ 29 - 1

def round (x : Nat) : Nat := (x + 4095) % 2 ^ 32 / 4096 * 4096

inductive Status
  | loaded
  | loading
  | created
  | free
  deriving DecidableEq, Repr

def Status.code : Status → Nat
  | .loaded => 0
  | .loading => 1
  | .created => 3
  | .free => 0xffffffff

structure FileT where
  name : List Byte
  size : Nat
  next : Nat
  status : Nat
  exec : Nat
  deriving DecidableEq

def FileT.bytes (f : FileT) : List Byte :=
  f.name ++ (leBytes 4 f.size ++ (leBytes 4 f.next ++ (leBytes 4 f.status ++ leBytes 4 f.exec)))

def sizeAt (m : Flash) (file : Nat) : Nat := word m (file + 32)
def nextAt (m : Flash) (file : Nat) : Nat := word m (file + 36)
def statusAt (m : Flash) (file : Nat) : Nat := word m (file + 40)
def execAt (m : Flash) (file : Nat) : Nat := word m (file + 44)

def loadFile (m : Flash) (file : Nat) : FileT :=
  ⟨slice m file 32, sizeAt m file, nextAt m file, statusAt m file, execAt m file⟩

structure CString where
  bytes : List Byte
  nonzero : (0 : Byte) ∉ bytes

def strncpy (name : List Byte) (n : Nat) : List Byte := name.take n ++ List.replicate (n - name.length) 0

def strncmpEq : List Byte → List Byte → Nat → Bool
  | _, _, 0 => true
  | s, t, n + 1 => s.headD 0 == t.headD 0 && (s.headD 0 == 0 || strncmpEq s.tail t.tail n)

/-! ## The module state -/

structure Volume where
  firstPage : Nat
  lastPage : Nat
  numof : Nat
  initialized : Bool
  first_pos : 0 < firstPage
  first_aligned : firstPage % 4096 = 0
  last_aligned : lastPage % 4096 = 0
  first_lt : firstPage < lastPage
  last_le : lastPage ≤ 4096 * numof
  numof_le : numof ≤ 2 ^ 19

/-- Number of pointer values, more than a walk can visit without repeating one. -/
def pointers : Nat := 2 ^ 32

section
variable (v : Volume) (m : Flash)

def firstFreeBody (p : Nat) : Nat ⊕ Option (Option Nat) :=
  if nextAt m p = v.firstPage then .inr (some none)
  else if nextAt m p = freePage then .inr (some (some p))
  else if nextAt m p % 4096 = 0 then .inl (nextAt m p)
  else .inr none

def getFirstFreePageAddr : Option (Option Nat) :=
  (runLoop (firstFreeBody v m) pointers v.firstPage).join

def flashNeeded (page : Nat) : Bool :=
  (List.range 1024).any fun i => word m (flashpageAddr page + 4 * i) != freePage

def flashPage (numof : Nat) (m : Flash) (page : Nat) : Option Flash :=
  if flashNeeded m page then flashpageErase numof m page else some m

def flashPages (numof : Nat) : Flash → Nat → Nat → Option Flash
  | m, _, 0 => some m
  | m, page, number + 1 => do
    let m ← flashPage numof m page
    flashPages numof m (page + 1) number

def flashFile (file : Nat) : Option Flash :=
  flashPages v.numof m (flashpagePage file) (round (sizeAt m file) / 4096)

def getFirstFile : Option Nat :=
  if v.initialized = false then none
  else if nextAt m v.firstPage = freePage then none
  else some v.firstPage

def getNextFile (file : Nat) : Option Nat :=
  let file := nextAt m file
  if v.initialized = false then none
  else if nextAt m file = freePage then none
  else if nextAt m file = v.firstPage then none
  else some file

/-! ## The interface -/

def format : Option Flash :=
  if v.initialized = false then some m
  else
    let start := flashpagePage v.firstPage
    flashPages v.numof m start (flashpagePage v.lastPage - start)

variable (name : CString)

def createFile (size exec : Nat) (status : Status) : Option (Option Nat × Flash) :=
  if v.initialized = false ∨ size = 0 ∨ filesizeMax < size ∨ (exec ≠ 0 ∧ exec ≠ 1) then some (none, m)
  else
    match getFirstFreePageAddr v m with
    | none => none
    | some none => some (none, m)
    | some (some ffp) =>
      let next := (ffp + round size) % 2 ^ 32
      let next := if next = v.lastPage then v.firstPage else next
      let file : FileT :=
        { name := strncpy name.bytes 31 ++ [0]
          size := size
          next := next
          status := status.code
          exec := exec }
      (flashpageWrite v.numof m ffp file.bytes).map fun m => (some ffp, m)

def fileStatus (file : Nat) (status : Status) : Option (Int × Flash) :=
  let write (m : Flash) := flashpageWrite v.numof m (file + 40) (leBytes 4 status.code)
  if statusAt m file = Status.free.code then (write m).map fun m => (0, m)
  else if statusAt m file = Status.created.code ∧ status = .free then some (-1, m)
  else do
    let m ← if statusAt m file = Status.created.code then write m else some m
    if statusAt m file = Status.loading.code then
      if status = .free ∨ status = .created then some (-1, m)
      else (write m).map fun m => (0, m)
    else some (-1, m)

def fileWrite (file offset : Nat) (src : List Byte) : Option (Int × Flash) :=
  if src.length = 0 then some (0, m)
  else if sizeAt m file < offset then some (-1, m)
  else if sizeAt m file < (offset + src.length) % 2 ^ 32 then some (-1, m)
  else (flashpageWriteUnaligned v.numof m (file + 48 + offset) src).map fun m => (0, m)

def hasName (file : Nat) : Bool := strncmpEq (slice m file 32) name.bytes 32

def searchBody (file : Nat) : Nat ⊕ Option Nat :=
  if hasName m name file then .inr (some file)
  else
    match getNextFile v m file with
    | some next => .inl next
    | none => .inr none

def fileSearch : Option (Option Nat) :=
  match getFirstFile v m with
  | none => some none
  | some file => runLoop (searchBody v m name) pointers file

/-! ## Removal -/

def copyPage (numof : Nat) (m : Flash) (dst src : Nat) : Option Flash :=
  let num := flashpagePage src
  if flashNeeded m num then do
    let m ← flashpageWrite numof m dst (slice m src 4096)
    flashpageErase numof m num
  else some m

def copyPages (numof : Nat) : Nat → Flash → Nat → Nat → Option (Flash × Nat)
  | 0, m, dst, _ => some (m, dst)
  | i + 1, m, dst, src => do
    let m ← copyPage numof m dst src
    copyPages numof i m (dst + 4096) (src + 4096)

def moveFile (dst src : Nat) : Option (Flash × Nat) := do
  let file := loadFile m src
  let size := round file.size
  let m ← flashpageWrite v.numof m dst { file with next := dst + size }.bytes
  let m ← flashpageWrite v.numof m (dst + 48) (slice m (src + 48) (4096 - 48))
  let m ← flashpageErase v.numof m (flashpagePage src)
  copyPages v.numof (size / 4096 - 1) m (dst + 4096) (src + 4096)

def consolidate : Nat → Flash → Nat → Option Nat → Option Flash
  | _, m, _, none => some m
  | 0, _, _, some _ => none
  | fuel + 1, m, dst, some src => do
    let next := getNextFile v m src
    let (m, dst) ← moveFile v m dst src
    consolidate fuel m dst next

def remove : Option (Int × Flash) :=
  if v.initialized = false then some (-1, m)
  else
    match fileSearch v m name with
    | none => none
    | some none => some (-1, m)
    | some (some dst) => do
      let next := getNextFile v m dst
      let m ← flashFile v m dst
      let m ← consolidate v pointers m dst next
      some (0, m)

end

end PipRiot.Tinyfs
