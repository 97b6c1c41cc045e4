import Mathlib.Tactic.Ring

/-!
# The static packet buffer

Addresses are offsets into the buffer. The unused chunks are the list behind
`_first_unused`, with the headers they leave in the memory; the snips that are in
use are a table by address. A call that reads a snip which is not in use, or that
fails an assertion, has no result.
-/

namespace PipRiot.Gnrc

structure PktbufConfig where
  -- the bits of `size_t`
  word : Nat
  -- `sizeof(_unused_t)`
  unit : Nat
  -- `sizeof(gnrc_pktsnip_t)`
  snipSize : Nat
  -- `CONFIG_GNRC_PKTBUF_SIZE`
  size : Nat
  header : Option Nat → Nat → Nat → UInt8
  unit_pow : ∃ k ≤ word, unit = 2 ^ k
  unit_dvd : unit ∣ size
  size_pos : 0 < size
  size_fits : size + unit ≤ 2 ^ word
  snip_pos : 0 < snipSize
  snip_fits : snipSize + unit ≤ 2 ^ word

variable (cfg : PktbufConfig)

def PktbufConfig.align (size : Nat) : Nat :=
  let x := (size + (cfg.unit - 1)) % 2 ^ cfg.word
  x - x % cfg.unit

structure Snip (ν : Type) where
  next : Option Nat
  data : Option Nat
  size : Nat
  users : Nat
  type : ν

structure Pktbuf (ν : Type) where
  free : List (Nat × Nat)
  snips : Nat → Option (Snip ν)
  mem : Nat → UInt8
  -- history: the bytes of the data of a snip, as they were found or last written
  contents : Nat → List UInt8

def copy (mem : Nat → UInt8) (dst n : Nat) (src : Nat → UInt8) : Nat → UInt8 :=
  fun i => if dst ≤ i ∧ i < dst + n then src (i - dst) else mem i

def overwrite (l : List UInt8) (offset : Nat) (l' : List UInt8) : List UInt8 :=
  l.take offset ++ l' ++ l.drop (offset + l'.length)

namespace Pktbuf

def distance (p q : Nat) : Nat := (p + 2 ^ cfg.word - q) % 2 ^ cfg.word

def writeHeader (p : Nat) (next : Option Nat) (size : Nat) (mem : Nat → UInt8) : Nat → UInt8 :=
  copy mem p cfg.unit (cfg.header next size)

/-- The headers of a list of chunks; unchanged ones are written as they were. -/
def writeHeaders (cfg : PktbufConfig) : List (Nat × Nat) → (Nat → UInt8) → Nat → UInt8
  | [], mem => mem
  | (p, n) :: l, mem => writeHeader cfg p (l.head?.map Prod.fst) n (writeHeaders cfg l mem)

/-- The loop of `_pktbuf_alloc`: the address and the chunks left, no list where
`_first_unused` becomes null. -/
def allocLoop (cfg : PktbufConfig) (n : Nat) : List (Nat × Nat) → Option (Nat × Option (List (Nat × Nat)))
  | [] => none
  | (p, m) :: l =>
    if n > m then (allocLoop cfg n l).map fun r => (r.1, r.2.map ((p, m) :: ·))
    else if cfg.unit > m - n then some (p, some l)
    else if p + n + cfg.unit > cfg.size then some (p, none)
    else some (p, some ((p + n, m - n) :: l))

def tooSmallHole (a b : Nat × Nat) : Bool := cfg.unit > distance cfg b.1 (a.1 + a.2)

def mergeChunks (a b : Nat × Nat) : Nat × Nat := (a.1, b.2 + (b.1 - a.1))

def joinNext (a : Nat × Nat) : List (Nat × Nat) → List (Nat × Nat)
  | [] => [a]
  | b :: l => if tooSmallHole cfg a b then mergeChunks a b :: l else a :: b :: l

def joinPrev (prev new : Nat × Nat) (l : List (Nat × Nat)) : List (Nat × Nat) :=
  if tooSmallHole cfg prev new then joinNext cfg (mergeChunks prev new) l else prev :: joinNext cfg new l

def insertAfter (cfg : PktbufConfig) (new : Nat × Nat) : Nat × Nat → List (Nat × Nat) → List (Nat × Nat)
  | prev, [] => joinPrev cfg prev new []
  | prev, c :: l => if c.1 < new.1 then prev :: insertAfter cfg new c l else joinPrev cfg prev new (c :: l)

def insertChunk (new : Nat × Nat) : List (Nat × Nat) → List (Nat × Nat)
  | [] => joinNext cfg new []
  | c :: l => if c.1 < new.1 then insertAfter cfg new c l else joinNext cfg new (c :: l)

section
variable {ν : Type}

def init (mem : Nat → UInt8) : Pktbuf ν where
  free := [(0, cfg.size)]
  snips _ := none
  mem := writeHeaders cfg [(0, cfg.size)] mem
  contents _ := []

variable (s : Pktbuf ν)

def alloc (size : Nat) : Option (Nat × Pktbuf ν) :=
  match allocLoop cfg (cfg.align size) s.free with
  | none => none
  | some (p, l) => some (p, { s with free := l.getD [], mem := writeHeaders cfg (l.getD []) s.mem })

def freeInternal (data : Option Nat) (size : Nat) : Pktbuf ν :=
  match data with
  | none => s
  | some p =>
    if p < cfg.size then
      let n := cfg.align size
      let atEnd := distance cfg cfg.size (p + n)
      let new := (p, if atEnd < cfg.unit then n + atEnd else n)
      let l := insertChunk cfg new s.free
      let next := (s.free.find? fun c => ¬ c.1 < p).map Prod.fst
      { s with free := l, mem := writeHeaders cfg l (writeHeader cfg p next new.2 s.mem) }
    else s

def setSnip (a : Nat) (p : Option (Snip ν)) : Pktbuf ν := { s with snips := Function.update s.snips a p }

def noteContents (a : Nat) (l : List UInt8) : Pktbuf ν :=
  { s with contents := Function.update s.contents a l }

def bytesAt (data : Option Nat) : Nat → UInt8 := fun i => s.mem (data.getD 0 + i)

def found (mem : Nat → UInt8) (d n : Nat) : List UInt8 := (List.range n).map fun i => mem (d + i)

/-- Where `_create_snip` copies from: nowhere, memory of the caller, or a snip. -/
inductive Source
  | null
  | caller (bytes : Nat → UInt8)
  | snip (a : Nat) (data : Option Nat)

def Source.copyTo (src : Source) (s : Pktbuf ν) (d size : Nat) : Pktbuf ν :=
  match src with
  | .null => s
  | .caller bytes => { s with mem := copy s.mem d size bytes }
  | .snip _ data => { s with mem := copy s.mem d size (s.bytesAt data) }

def Source.contents (src : Source) (s : Pktbuf ν) (d size : Nat) : List UInt8 :=
  match src with
  | .null => found s.mem d size
  | .caller bytes => (List.range size).map bytes
  | .snip a _ => s.contents a

def createSnip (next : Option Nat) (src : Source) (size : Nat) (type : ν) : Pktbuf ν × Option Nat :=
  match s.alloc cfg cfg.snipSize with
  | none => (s, none)
  | some (a, s1) =>
    if size > 0 then
      match s1.alloc cfg size with
      | none => (s1.freeInternal cfg (some a) cfg.snipSize, none)
      | some (d, s2) =>
        (((src.copyTo s2 d size).setSnip a (some ⟨next, some d, size, 1, type⟩)).noteContents a
          (src.contents s2 d size), some a)
    else ((s1.setSnip a (some ⟨next, none, size, 1, type⟩)).noteContents a [], some a)

def add (next : Option Nat) (data : Option (Nat → UInt8)) (size : Nat) (type : ν) : Pktbuf ν × Option Nat :=
  if size > cfg.size then (s, none)
  else s.createSnip cfg next (data.elim .null .caller) size type

def setMarked (a : Nat) (p : Snip ν) (m dm : Nat) (rest : Option Nat) (size : Nat) (type : ν) : Pktbuf ν :=
  (((s.setSnip m (some ⟨p.next, some dm, size, 1, type⟩)).setSnip a
    (some { p with data := rest, size := p.size - size, next := some m })).noteContents m
      ((s.contents a).take size)).noteContents
    a ((s.contents a).drop size)

variable (pkt : Option Nat)

def mark (size : Nat) (type : ν) : Option (Pktbuf ν × Option Nat) :=
  match pkt with
  | none => some (s, none)
  | some a =>
    match s.snips a with
    | none => none
    | some p =>
      if size = 0 ∨ size > p.size then some (s, none)
      else
        match p.data with
        | none => some (s, none)
        | some d =>
          match s.alloc cfg cfg.snipSize with
          | none => some (s, none)
          | some (m, s1) =>
            -- marked data would not fit an `_unused_t`, so the data is moved
            if p.size ≠ size ∧ size < cfg.align size then
              match s1.alloc cfg size with
              | none => some (s1.freeInternal cfg (some m) cfg.snipSize, none)
              | some (dm, s2) =>
                match s2.alloc cfg (p.size - size) with
                | none => some ((s2.freeInternal cfg (some m) cfg.snipSize).freeInternal cfg (some dm) size, none)
                | some (dr, s3) =>
                  let s4 := { s3 with mem := copy s3.mem dm size (s3.bytesAt (some d)) }
                  let s5 := { s4 with mem := copy s4.mem dr (p.size - size) (s4.bytesAt (some (d + size))) }
                  some ((s5.freeInternal cfg (some d) p.size).setMarked a p m dm (some dr) size type, some m)
            else
              let rest := if p.size ≠ size then some (d + size) else none
              some (s1.setMarked a p m d rest size type, some m)

def enomem : Int := 12

def reallocData (a size : Nat) : Option (Pktbuf ν × Int) :=
  match s.snips a with
  | none => none
  | some p =>
    if ¬ (p.size = 0 ↔ p.data = none) then none
    else if size = p.size then some (s, 0)
    else if size = 0 ∧ p.data ≠ none then
      some ((((s.freeInternal cfg p.data p.size).setSnip a
        (some { p with data := none, size := size })).noteContents a []), 0)
    else if size > p.size then
      match s.alloc cfg size with
      | none => some (s, enomem)
      | some (d, s1) =>
        let n := if p.size < size then p.size else size
        let s2 := if p.data ≠ none then { s1 with mem := copy s1.mem d n (s1.bytesAt p.data) } else s1
        some (((s2.freeInternal cfg p.data p.size).setSnip a
          (some { p with data := some d, size := size })).noteContents a
          (s.contents a ++ found s1.mem (d + p.size) (size - p.size)), 0)
    else
      let s1 := if cfg.align p.size > cfg.align size then
        s.freeInternal cfg (p.data.map (· + cfg.align size)) (p.size - cfg.align size) else s
      some ((s1.setSnip a (some { p with size := size })).noteContents a ((s.contents a).take size), 0)

/-- `gnrc_pktbuf_hold`; the first argument bounds the length of a packet. -/
def holdLoop (cfg : PktbufConfig) (num : Nat) : Nat → Pktbuf ν → Option Nat → Option (Pktbuf ν)
  | _, s, none => some s
  | 0, _, some _ => none
  | fuel + 1, s, some a =>
    match s.snips a with
    | none => none
    | some p => holdLoop cfg num fuel (s.setSnip a (some { p with users := (p.users + num) % 2 ^ cfg.word })) p.next

def releaseSnip (a : Nat) (p : Snip ν) : Pktbuf ν :=
  if p.users = 1 then ((s.freeInternal cfg p.data p.size).freeInternal cfg (some a) cfg.snipSize).setSnip a none
  else s.setSnip a (some { p with users := p.users - 1 })

def releaseLoop (cfg : PktbufConfig) : Nat → Pktbuf ν → Option Nat → Option (Pktbuf ν)
  | _, s, none => some s
  | 0, _, some _ => none
  | fuel + 1, s, some a =>
    match s.snips a with
    | none => none
    | some p => if p.users = 0 then none else releaseLoop cfg fuel (s.releaseSnip cfg a p) p.next

def release : Option (Pktbuf ν) := releaseLoop cfg cfg.size s pkt

def startWrite : Option (Pktbuf ν × Option Nat) :=
  match pkt with
  | none => some (s, none)
  | some a =>
    match s.snips a with
    | none => none
    | some p =>
      if p.users > 1 then
        let r := s.createSnip cfg p.next (.snip a p.data) p.size p.type
        match r.2 with
        | none => some r
        | some _ => some (r.1.setSnip a (some { p with users := p.users - 1 }), r.2)
      else some (s, some a)

def pktLen (cfg : PktbufConfig) (s : Pktbuf ν) : Nat → Option Nat → Option Nat
  | _, none => some 0
  | 0, some _ => none
  | fuel + 1, some a =>
    match s.snips a with
    | none => none
    | some p => (pktLen cfg s fuel p.next).map fun n => (p.size + n) % 2 ^ cfg.word

def mergeLoop (a d : Nat) : Nat → Pktbuf ν → Nat → Option Nat → Option (Pktbuf ν)
  | _, s, _, none => some s
  | 0, _, _, some _ => none
  | fuel + 1, s, offset, some b =>
    match s.snips b with
    | none => none
    | some q =>
      mergeLoop a d fuel (({ s with mem := copy s.mem (d + offset) q.size (s.bytesAt q.data) } :
        Pktbuf ν).noteContents a
        (overwrite (s.contents a) offset (s.contents b))) (offset + q.size) q.next

def merge (a : Nat) : Option (Pktbuf ν × Int) :=
  match s.snips a with
  | none => none
  | some p =>
    match s.pktLen cfg cfg.size (some a) with
    | none => none
    | some size =>
      if p.size = size then some (s, 0)
      else
        match s.reallocData cfg a size with
        | none => none
        | some (s1, res) =>
          if res ≠ 0 then some (s1, res)
          else
            match s1.snips a with
            | none => none
            | some p1 =>
              match mergeLoop a (p1.data.getD 0) cfg.size s1 p.size p1.next with
              | none => none
              | some s2 =>
                match s2.release cfg p1.next with
                | none => none
                | some s3 =>
                  match s3.snips a with
                  | none => none
                  | some p3 => some (s3.setSnip a (some { p3 with next := none }), res)

def deleteLoop (b : Nat) (q : Snip ν) : Nat → Pktbuf ν → Option Nat → Option (Pktbuf ν)
  | _, s, none => some s
  | 0, _, some _ => none
  | fuel + 1, s, some a =>
    match s.snips a with
    | none => none
    | some p =>
      if p.next = some b then some (s.setSnip a (some { p with next := q.next })) else deleteLoop b q fuel s p.next

def removeSnip (b : Nat) : Option (Pktbuf ν × Option Nat) :=
  match s.snips b with
  | none => none
  | some q =>
    let r := if pkt = some b then some (s, q.next) else (deleteLoop b q cfg.size s pkt).map fun u => (u, pkt)
    match r with
    | none => none
    | some (s1, res) =>
      match s1.snips b with
      | none => none
      | some q1 => ((s1.setSnip b (some { q1 with next := none })).release cfg (some b)).map fun u => (u, res)

def write (a i : Nat) (v : UInt8) : Option (Pktbuf ν) :=
  match s.snips a with
  | none => none
  | some p =>
    if i < p.size then
      some (({ s with mem := copy s.mem (p.data.getD 0 + i) 1 fun _ => v } : Pktbuf ν).noteContents a
        (overwrite (s.contents a) i [v]))
    else none

inductive Op (ν : Type)
  | add (next : Option Nat) (data : Option (Nat → UInt8)) (size : Nat) (type : ν)
  | mark (pkt : Option Nat) (size : Nat) (type : ν)
  | reallocData (a size : Nat)
  | hold (pkt : Option Nat) (num : Nat)
  | release (pkt : Option Nat)
  | startWrite (pkt : Option Nat)
  | merge (a : Nat)
  | removeSnip (pkt : Option Nat) (b : Nat)
  | write (a i : Nat) (v : UInt8)

def step : Op ν → Option (Pktbuf ν)
  | .add next data size type => some (s.add cfg next data size type).1
  | .mark pkt size type => (s.mark cfg pkt size type).map Prod.fst
  | .reallocData a size => (s.reallocData cfg a size).map Prod.fst
  | .hold pkt num => holdLoop cfg num cfg.size s pkt
  | .release pkt => s.release cfg pkt
  | .startWrite pkt => (s.startWrite cfg pkt).map Prod.fst
  | .merge a => (s.merge cfg a).map Prod.fst
  | .removeSnip pkt b => (s.removeSnip cfg pkt b).map Prod.fst
  | .write a i v => s.write a i v

end

end Pktbuf

end PipRiot.Gnrc
