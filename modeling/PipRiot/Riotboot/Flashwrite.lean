import PipRiot.Lib.Nor

/-!
# Firmware update

An image is put into a slot of the flash piece by piece, through a buffer. In raw mode
the buffer holds one write block and the first block is kept until the end; otherwise
it holds a page. A call that stops by a failed assertion or returns an error is an
error here. Addresses count from `CPU_FLASH_BASE`.
-/

namespace PipRiot.Riotboot

abbrev Flash := Nat → Byte

def bufferSizeOf (raw : Bool) (pageSize writeBlockSize : Nat) : Nat :=
  if raw then if writeBlockSize < 4 then 4 else writeBlockSize else pageSize

/-- The configuration, with the assertion made at compile time and a slot of whole
pages. -/
structure Config where
  raw : Bool
  pageSize : Nat
  writeBlockSize : Nat
  writeBlockAlignment : Nat
  numof : Nat
  slotPage : Nat
  slotPages : Nat
  page_pos : 0 < pageSize
  buffer_dvd : bufferSizeOf raw pageSize writeBlockSize ∣ pageSize
  block_dvd : writeBlockSize ∣ bufferSizeOf raw pageSize writeBlockSize
  align_dvd : writeBlockAlignment ∣ bufferSizeOf raw pageSize writeBlockSize
  slot_pos : 0 < slotPages
  slot_fits : slotPage + slotPages ≤ numof

inductive Stop
  | assertion
  | returned (code : Int)

structure State where
  offset : Nat
  flashpage : Nat
  flashpageBuf : List Byte
  firstblockBuf : List Byte
  flash : Flash

variable (cfg : Config)

def Config.bufferSize : Nat := bufferSizeOf cfg.raw cfg.pageSize cfg.writeBlockSize

def Config.slotSize : Nat := cfg.slotPages * cfg.pageSize

def flashpageAddr (page : Nat) : Nat := page * cfg.pageSize

def Config.slotStart : Nat := flashpageAddr cfg cfg.slotPage

variable (m : Flash)

def flashpageErase (page : Nat) : Except Stop Flash :=
  if page < cfg.numof then .ok (erase m (flashpageAddr cfg page) cfg.pageSize) else .error .assertion

def flashpageWrite (target : Nat) (data : List Byte) : Except Stop Flash :=
  if data.length % cfg.writeBlockSize = 0 ∧ target % cfg.writeBlockAlignment = 0 ∧
    target + data.length ≤ flashpageAddr cfg cfg.numof then
    .ok (program m target data)
  else .error .assertion

def flashpageWritePage (page : Nat) (data : List Byte) : Except Stop Flash := do
  let m ← flashpageErase cfg m page
  flashpageWrite cfg m (flashpageAddr cfg page) data

def flashpageVerify (page : Nat) (data : List Byte) : Bool := slice m (flashpageAddr cfg page) cfg.pageSize = data

def flashpageWriteAndVerify (page : Nat) (data : List Byte) : Except Stop Flash := do
  let m ← flashpageWritePage cfg m page data
  if flashpageVerify cfg m page data then pure m else .error (.returned (-1))

def zeros : List Byte := List.replicate cfg.bufferSize 0

def initRaw (offset : Nat) : Except Stop State :=
  if offset ≤ cfg.pageSize then do
    let m ← if cfg.raw = true ∧ offset ≠ 0 then flashpageErase cfg m cfg.slotPage else pure m
    pure ⟨offset, cfg.slotPage, zeros cfg, zeros cfg, m⟩
  else .error .assertion

variable (s : State)

def flush : Except Stop State :=
  if cfg.raw then
    let bufferPos := s.offset % cfg.bufferSize
    if bufferPos = 0 then pure s
    else do
      let m ← flashpageWrite cfg s.flash (cfg.slotStart + (s.offset - bufferPos)) s.flashpageBuf
      pure { s with flash := m }
  else do
    let m ← flashpageWriteAndVerify cfg s.flash s.flashpage s.flashpageBuf
    pure { s with flash := m }

/-! ## One round of the loop of `riotboot_flashwrite_putbytes` -/

def enterPage : Except Stop (State × Nat) :=
  let flashpagePos := s.offset - (flashpageAddr cfg s.flashpage - cfg.slotStart)
  if cfg.raw = true ∧ flashpagePos = cfg.pageSize then do
    let m ← flashpageErase cfg s.flash (s.flashpage + 1)
    pure ({ s with flashpage := s.flashpage + 1, flash := m }, 0)
  else pure (s, flashpagePos)

def fill (piece : List Byte) : State :=
  let bufferPos := s.offset % cfg.bufferSize
  let buf := if cfg.raw = true ∧ bufferPos = 0 then zeros cfg else s.flashpageBuf
  { s with
    flashpageBuf := buf.take bufferPos ++ piece ++ buf.drop (bufferPos + piece.length)
    offset := s.offset + piece.length }

/-- The buffer is written out; `flashpagePos` is the position that the round began at. -/
def store (flashpagePos : Nat) : Except Stop State :=
  if cfg.raw then
    if flashpageAddr cfg s.flashpage = cfg.slotStart ∧ s.offset = cfg.bufferSize then
      pure { s with firstblockBuf := s.flashpageBuf }
    else do
      let m ← flashpageWrite cfg s.flash (flashpageAddr cfg s.flashpage + flashpagePos) s.flashpageBuf
      pure { s with flash := m }
  else do
    let m ← flashpageWriteAndVerify cfg s.flash s.flashpage s.flashpageBuf
    pure { s with flash := m, flashpage := s.flashpage + 1 }

def putPiece (more : Bool) (s : State) (piece : List Byte) : Except Stop State := do
  let (t, flashpagePos) ← enterPage cfg s
  if s.offset % cfg.bufferSize + piece.length = cfg.bufferSize ∨ more = false then
    store cfg (fill cfg t piece) flashpagePos
  else pure (fill cfg t piece)

def toCopy (len : Nat) : Nat := min (cfg.bufferSize - s.offset % cfg.bufferSize) len

def putLoop (more : Bool) : Nat → State → List Byte → Except Stop State
  | _, s, [] => pure s
  | 0, s, _ => pure s
  | n + 1, s, bytes => do
    let t ← putPiece cfg more s (bytes.take (toCopy cfg s bytes.length))
    putLoop more n t (bytes.drop (toCopy cfg s bytes.length))

def putbytes (bytes : List Byte) (more : Bool) : Except Stop State := putLoop cfg more bytes.length s bytes

def finishRaw (bytes : List Byte) : Except Stop State :=
  if bytes.length ≤ cfg.pageSize then
    if cfg.raw then do
      let first := bytes ++ s.firstblockBuf.drop bytes.length
      let m ← flashpageWrite cfg s.flash cfg.slotStart first
      pure { s with firstblockBuf := first, flash := m }
    else do
      let firstpage := bytes ++ slice s.flash (cfg.slotStart + bytes.length) (cfg.pageSize - bytes.length)
      let m ← flashpageWriteAndVerify cfg s.flash cfg.slotPage firstpage
      pure { s with flashpageBuf := if bytes.length < cfg.pageSize then firstpage else s.flashpageBuf, flash := m }
  else .error .assertion

def putAll (s : State) : List (List Byte) → Except Stop State
  | [] => pure s
  | c :: cs => do
    let t ← putbytes cfg s c true
    putAll t cs

def update (head : List Byte) (chunks : List (List Byte)) : Except Stop State := do
  let s ← initRaw cfg m head.length
  let s ← putAll cfg s chunks
  let s ← flush cfg s
  finishRaw cfg s head

/-- The slot holds the image and the flash around the slot is as before. -/
def Updated (image : List Byte) (r : Except Stop State) : Prop :=
  ∃ s, r = .ok s ∧ slice s.flash cfg.slotStart image.length = image ∧
    ∀ x, x < cfg.slotStart ∨ cfg.slotStart + cfg.slotSize ≤ x → s.flash x = m x

end PipRiot.Riotboot
