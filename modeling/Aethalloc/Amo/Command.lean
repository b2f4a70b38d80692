/-
The commands an application core sends to the support core.

A ring entry is a command and a payload.  The command says which record the payload
holds; nothing looks at the byte it is kept as.  The payload is a union of 56 bytes,
in which each command keeps a record of its own, laid out the way C lays it out:
every field at the first offset after the field before it that its own size divides.
Writing one field of the union sets the bytes of that record and no others, and
nothing checks that the field read later is the field written: that is up to the
command beside it.

So the payload is modelled as its bytes.  `junk` stands for what the bytes that a
write leaves alone happened to hold.  `_reserved` is left out, nothing reads it.
-/
import Aethalloc.Lib.Memory

namespace Aethalloc.Amo

open Lib

/-- `RingCommand`, one byte. -/
inductive RingCommand
  | freeBlock
  | compactionRequest
  | tagUpdate
  | statsReport
  | noOp
  deriving DecidableEq

structure FreeBlockPayload where
  ptr : UInt64
  size : UInt64
  sizeClass : UInt8
  deriving DecidableEq

structure CompactionRequestPayload where
  startAddr : UInt64
  length : UInt64
  deriving DecidableEq

structure TagUpdatePayload where
  ptr : UInt64
  oldTag : UInt16
  newTag : UInt16
  deriving DecidableEq

structure StatsReportPayload where
  threadId : UInt64
  allocs : UInt64
  frees : UInt64
  deriving DecidableEq

/-- The union: 56 bytes, whichever record they hold. -/
structure RingPayload where
  raw : Vector UInt8 56
  deriving DecidableEq

namespace RingPayload

/-- The bytes of a payload as memory that starts at address 0. -/
def mem (p : RingPayload) : Mem := fun x => if h : x < 56 then p.raw[x] else 0

/-- The payload at address 0. -/
def ofMem (m : Mem) : RingPayload := ⟨Vector.ofFn fun i => m i⟩

/-- `RingPayload::default`, and a payload of a buffer that was never written. -/
def zeroed : RingPayload := ofMem fun _ => 0

/-! ### Writing a field of the union -/

def writeFreeBlock (junk : RingPayload) (p : FreeBlockPayload) : RingPayload :=
  ofMem (((junk.mem.write 0 8 p.ptr.toNat).write 8 8 p.size.toNat).write 16 1 p.sizeClass.toNat)

def writeCompaction (junk : RingPayload) (p : CompactionRequestPayload) : RingPayload :=
  ofMem ((junk.mem.write 0 8 p.startAddr.toNat).write 8 8 p.length.toNat)

def writeTagUpdate (junk : RingPayload) (p : TagUpdatePayload) : RingPayload :=
  ofMem (((junk.mem.write 0 8 p.ptr.toNat).write 8 2 p.oldTag.toNat).write 10 2 p.newTag.toNat)

def writeStats (junk : RingPayload) (p : StatsReportPayload) : RingPayload :=
  ofMem (((junk.mem.write 0 8 p.threadId.toNat).write 8 8 p.allocs.toNat).write 16 8 p.frees.toNat)

/-! ### Reading a field of the union -/

def freeBlock (p : RingPayload) : FreeBlockPayload where
  ptr := UInt64.ofNat (p.mem.read 0 8)
  size := UInt64.ofNat (p.mem.read 8 8)
  sizeClass := UInt8.ofNat (p.mem.read 16 1)

def compaction (p : RingPayload) : CompactionRequestPayload where
  startAddr := UInt64.ofNat (p.mem.read 0 8)
  length := UInt64.ofNat (p.mem.read 8 8)

def tagUpdate (p : RingPayload) : TagUpdatePayload where
  ptr := UInt64.ofNat (p.mem.read 0 8)
  oldTag := UInt16.ofNat (p.mem.read 8 2)
  newTag := UInt16.ofNat (p.mem.read 10 2)

def stats (p : RingPayload) : StatsReportPayload where
  threadId := UInt64.ofNat (p.mem.read 0 8)
  allocs := UInt64.ofNat (p.mem.read 8 8)
  frees := UInt64.ofNat (p.mem.read 16 8)

end RingPayload

/-- One entry of the ring. -/
structure RingEntry where
  command : RingCommand
  payload : RingPayload
  deriving DecidableEq

namespace RingEntry

/-- `RingEntry::new`. -/
def new (command : RingCommand) (payload : RingPayload) : RingEntry := ⟨command, payload⟩

/-- `RingEntry::default`. -/
def default : RingEntry := new .noOp .zeroed

/-- What `core::mem::zeroed` leaves in a slot; the byte 0 says `FreeBlock`. -/
def zeroed : RingEntry := ⟨.freeBlock, .zeroed⟩

end RingEntry

/-- A command with the record that goes with it. -/
inductive Command
  | freeBlock (payload : FreeBlockPayload)
  | compactionRequest (payload : CompactionRequestPayload)
  | tagUpdate (payload : TagUpdatePayload)
  | statsReport (payload : StatsReportPayload)
  | noOp
  deriving DecidableEq

/-- The entry a sender builds: the record goes into the field of its own command. -/
def Command.entry (junk : RingPayload) : Command → RingEntry
  | .freeBlock p => .new .freeBlock (junk.writeFreeBlock p)
  | .compactionRequest p => .new .compactionRequest (junk.writeCompaction p)
  | .tagUpdate p => .new .tagUpdate (junk.writeTagUpdate p)
  | .statsReport p => .new .statsReport (junk.writeStats p)
  | .noOp => .new .noOp junk

/-- `handle_command` up to what it does with the fields: it reads the field of the union that the
command names. -/
def RingEntry.handleCommand (entry : RingEntry) : Command :=
  match entry.command with
  | .freeBlock => .freeBlock entry.payload.freeBlock
  | .compactionRequest => .compactionRequest entry.payload.compaction
  | .tagUpdate => .tagUpdate entry.payload.tagUpdate
  | .statsReport => .statsReport entry.payload.stats
  | .noOp => .noOp

end Aethalloc.Amo
