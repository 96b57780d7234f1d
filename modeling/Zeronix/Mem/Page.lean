import Zeronix.Mem.PageMapper

/-!
# Kernel and user page tables

The second half of `src/mem/page.rs`.  The kernel's page table is built once, from the memory
map and the addresses of the linker.  A user page table starts with the upper half of the
kernel's and an empty lower half.

As in `Mapper`, a table is read and written at its physical address.  The kernel finds it in its
window at `KERNEL_VMA`, which shows each frame at its place as long as no image is loaded into the
upper half.
-/

namespace Zeronix

open Mapper

/-- `_bootdata_start` and `_bootdata_end`: `linker.ld` puts the section at `0x400000`, and
`boot.S` fills it with three page tables, a stack of 16 KiB, two words of 4 bytes, a GDT of
three entries and its 6-byte pointer. -/
def BOOTDATA_START : Nat := 0x400000
def BOOTDATA_END : Nat := BOOTDATA_START + (3 * 4096 + 16384 + 2 * 4 + 3 * 8 + 6)

/-- The other addresses that the linker and the boot loader choose. -/
structure BootLayout where
  kernelStart : Nat
  kernelEnd : Nat
  mbiStart : Nat
  mbiEnd : Nat
  textStart : Nat
  textEnd : Nat
  rodataStart : Nat
  rodataEnd : Nat
  dataStart : Nat
  dataEnd : Nat
  bssStart : Nat
  bssEnd : Nat

namespace Page

open EntryFlags

/-- `(start..end).step_by(PAGE_SIZE)`. -/
def pageSteps (start stop : Nat) : List Nat :=
  (List.range ((stop - start + (PAGE_SIZE - 1)) / PAGE_SIZE)).map fun i => start + i * PAGE_SIZE

/-- Map one page of the area at `phys` to the window at `KERNEL_VMA`. -/
def mapWindowPage (pml4 : Nat) (pm : PhysMem) (phys : Nat) : Option PhysMem :=
  (physToVirt phys).bind fun virt => map pm pml4 virt phys (PRESENT ||| WRITABLE ||| NX)

def mapArea (pml4 : Nat) (pm : PhysMem) (area : MemoryArea) : Option PhysMem :=
  (pageSteps area.startAddress.toNat area.endAddress.toNat).foldlM (mapWindowPage pml4) pm

/-- Map one page of the kernel; `addr - KERNEL_VMA` may underflow. -/
def mapKernelPage (pml4 : Nat) (flags : EntryFlags) (pm : PhysMem) (addr : Nat) : Option PhysMem :=
  (Word.sub addr KERNEL_VMA).bind fun phys => map pm pml4 addr phys flags

def setRange (pm : PhysMem) (pml4 start stop : Nat) (flags : EntryFlags) : Option PhysMem := do
  let stop ← alignUp stop PAGE_SIZE
  (pageSteps (alignDown start PAGE_SIZE) stop).foldlM (mapKernelPage pml4 flags) pm

def setIdentityRange (pm : PhysMem) (pml4 start stop : Nat) (flags : EntryFlags) :
    Option PhysMem := do
  let stop ← alignUp stop PAGE_SIZE
  (pageSteps (alignDown start PAGE_SIZE) stop).foldlM
    (fun pm addr => map pm pml4 addr addr flags) pm

/-- The mappings of `init_kernel_page_table`, once its PML4 is cleared. -/
def mapKernel (pm : PhysMem) (pml4 : Nat) (memMap : List MemoryArea) (l : BootLayout) :
    Option PhysMem := do
  let pm ← (memMap.filter (·.usable)).foldlM (mapArea pml4) pm
  let kernelStart ← physToVirt l.kernelStart
  let kernelEnd ← physToVirt l.kernelEnd
  let pm ← setRange pm pml4 kernelStart kernelEnd (PRESENT ||| WRITABLE ||| NX ||| GLOBAL)
  let pm ← setIdentityRange pm pml4 BOOTDATA_START BOOTDATA_END (PRESENT ||| WRITABLE ||| NX)
  let pm ← setIdentityRange pm pml4 l.mbiStart l.mbiEnd (PRESENT ||| WRITABLE ||| NX)
  let pm ← setRange pm pml4 l.textStart l.textEnd (PRESENT ||| GLOBAL)
  let pm ← setRange pm pml4 l.rodataStart l.rodataEnd (PRESENT ||| NX ||| GLOBAL)
  let pm ← setRange pm pml4 l.dataStart l.dataEnd (PRESENT ||| WRITABLE ||| NX ||| GLOBAL)
  setRange pm pml4 l.bssStart l.bssEnd (PRESENT ||| WRITABLE ||| NX ||| GLOBAL)

/-- A frame below the limit for a PML4; none left is a panic. -/
def allocPml4 (pm : PhysMem) : Option (Nat × PhysMem) :=
  match pm.buddy.allocateBelow 0 EARLY_PAGE_TABLE_LIMIT with
  | some (some frame, b) => some (frame, { pm with buddy := b })
  | _ => none

/-- Clear the PML4 at `pml4` through the window. -/
def clearPml4 (pm : PhysMem) (pml4 : Nat) : Option PhysMem :=
  (physToVirt pml4).map fun _ => { pm with mem := pm.mem.fill pml4 PAGE_SIZE 0 }

def initKernelPageTable (pm : PhysMem) (memMap : List MemoryArea) (l : BootLayout) :
    Option (Nat × PhysMem) := do
  let (pml4, pm) ← allocPml4 pm
  let pm ← clearPml4 pm pml4
  let pm ← mapKernel pm pml4 memMap l
  return (pml4, pm)

/-- `while index < 512 { user[index] = kernel[index]; index += 1 }` from `256` on, `n` times. -/
def copyHalf (m : Memory) (kernel user : Nat) : Nat → Memory
  | 0 => m
  | n + 1 =>
    let m := copyHalf m kernel user n
    m.store (entryAt user (256 + n)) (entry m kernel (256 + n))

def createUserPageTable (pm : PhysMem) (kernelPml4 : Nat) : Option (Nat × PhysMem) := do
  if kernelPml4 = 0 then none
  else
    let (user, pm) ← allocPml4 pm
    let _ ← physToVirt kernelPml4
    let pm ← clearPml4 pm user
    return (user, { pm with mem := copyHalf pm.mem kernelPml4 user 256 })

def mapIntoPageTable (pm : PhysMem) (pml4 virt phys : Nat) (flags : EntryFlags) : Option PhysMem :=
  (physToVirt pml4).bind fun _ => map pm pml4 virt phys flags

end Page

end Zeronix
