import Zeronix.Lib.Radix
import Zeronix.Mem.Alloc
import Zeronix.Mem.BuddyRuns
import Zeronix.Mem.PageEntry

/-!
# Mapping pages

`src/mem/page/pagemapper.rs`: `Mapper::map` walks the four levels of an x86-64 page table,
makes the tables that are missing and writes the last entry.

The memory here is physical.  The source reads and writes a frame through the window at
`KERNEL_VMA`, which shows all of it until a page of the window is mapped to something else; what
remains of that in the model is the addition that may overflow.  `none` is a panic: that addition,
or an allocator with no frame below `EARLY_PAGE_TABLE_LIMIT`.

`walk` is the processor's side: it follows the entries from the root and combines the
permissions of all four.
-/

namespace Zeronix

open Radix BuddyAllocator

def EARLY_PAGE_TABLE_LIMIT : Nat := 8 * 1024 * 1024

/-- The number of entries of a `PageTable`. -/
def TABLE_ENTRIES : Nat := 512

/-- Physical memory and the allocator of its pages. -/
structure PhysMem where
  buddy : BuddyAllocator
  mem : Memory

namespace Mapper

open PageTableEntry

/-- `phys + KERNEL_VMA`, when the sum is a word. -/
def physToVirt (phys : Nat) : Option Nat :=
  if phys < Word.modulus - KERNEL_VMA then some (phys + KERNEL_VMA) else none

/-- The address of an entry of the table at `table`. -/
def entryAt (table i : Nat) : Nat := table + 8 * i

def entry (m : Memory) (table i : Nat) : Nat := m.load (entryAt table i)

/-- Point an entry at a new frame and clear the frame. -/
def linkTable (m : Memory) (entry frame : Nat) (tableFlags : EntryFlags) : Option Memory :=
  (physToVirt frame).map fun _ =>
    (m.store entry (setAddr frame tableFlags)).fill frame PAGE_SIZE 0

/-- The branch of `get_or_create_table` for an entry that is not present. -/
def createTable (pm : PhysMem) (entry : Nat) (tableFlags : EntryFlags) : Option PhysMem := do
  match ← pm.buddy.allocateBelow 0 EARLY_PAGE_TABLE_LIMIT with
  | (none, _) => none
  | (some frame, b) => (linkTable pm.mem entry frame tableFlags).map fun m => { buddy := b, mem := m }

/-- The `if` of `get_or_create_table`. -/
def ensureTable (pm : PhysMem) (entry : Nat) (tableFlags : EntryFlags) : Option PhysMem :=
  if !isPresent (pm.mem.load entry) then createTable pm entry tableFlags
  else some { pm with mem := pm.mem.store entry (addFlags (pm.mem.load entry) tableFlags) }

def getOrCreateTable (pm : PhysMem) (entry : Nat) (tableFlags : EntryFlags) :
    Option (Nat × PhysMem) := do
  let pm ← ensureTable pm entry tableFlags
  let tablePhys := addr (pm.mem.load entry)
  (physToVirt tablePhys).map fun _ => (tablePhys, pm)

/-- The flags of the entries above the last level. -/
def tableFlags (flags : EntryFlags) : EntryFlags :=
  if flags.user then EntryFlags.PRESENT ||| EntryFlags.WRITABLE ||| EntryFlags.USER
  else EntryFlags.PRESENT ||| EntryFlags.WRITABLE

/-- The index of an address at the level that starts at the given bit. -/
def index (virt shift : Nat) : Nat := (virt >>> shift) &&& 0x1FF

def map (pm : PhysMem) (pml4 virt phys : Nat) (flags : EntryFlags) : Option PhysMem := do
  let (pdpt, pm) ← getOrCreateTable pm (entryAt pml4 (index virt 39)) (tableFlags flags)
  let (pd, pm) ← getOrCreateTable pm (entryAt pdpt (index virt 30)) (tableFlags flags)
  let (pt, pm) ← getOrCreateTable pm (entryAt pd (index virt 21)) (tableFlags flags)
  return { pm with
    mem := pm.mem.store (entryAt pt (index virt 12))
      (setAddr phys (flags ||| EntryFlags.PRESENT)) }

/-- One call of `map`. -/
structure Call where
  virt : Nat
  phys : Nat
  flags : EntryFlags

def mapAll (pm : PhysMem) (pml4 : Nat) (calls : List Call) : Option PhysMem :=
  calls.foldlM (fun pm c => map pm pml4 c.virt c.phys c.flags) pm

/-! ### The walk of the processor -/

/-- How page tables form a radix tree; the steps of `shared` count as lying below `base`. -/
def scheme (base : Nat) (shared : Nat → Bool) : Scheme Nat where
  child e := if isPresent e then some (addr e) else none
  width := TABLE_ENTRIES
  depth := 3
  base := base
  shared := shared

/-- The indices of an address, the last level first. -/
def indices (virt : Nat) : List Nat := [index virt 12, index virt 21, index virt 30, index virt 39]

structure Translation where
  frame : Nat
  user : Bool
  writable : Bool
  nx : Bool
  deriving DecidableEq, Repr

/-- What four entries say, the last level first.  A large page would end the walk early. -/
def translate : List Nat → Option Translation
  | [] => none
  | pte :: tables =>
    if isPresent pte && tables.all (fun e => !(flags e).huge) then
      some {
        frame := addr pte
        user := (pte :: tables).all fun e => (flags e).user
        writable := (pte :: tables).all fun e => (flags e).writable
        nx := (pte :: tables).any fun e => (flags e).nx }
    else none

def walk (m : Memory) (pml4 virt : Nat) : Option Translation :=
  ((scheme 0 fun _ => false).trail (entry m) pml4 (indices virt)).bind translate

end Mapper

end Zeronix
