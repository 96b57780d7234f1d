import Zeronix.Lib.Word

/-!
# The buddy allocator

`src/mem/page/pagealloc.rs`: one `PageInfo` for each physical page, and for each order
the first page of a doubly linked list of free blocks, threaded through the `next` and
`prev` fields of the blocks' first pages.  A link holds the page number plus one, so
that `0` is the end of a list.

An operation that panics in the source (an index out of range, a failed assertion, an
overflowing `+` of the dev profile) answers `none` here, and so does a loop that does
not end.  Two loops of the source are bounded by nothing in their text: the walk along
a free list in `find_free` and the scan of a region in `add_region`.  They run on fuel
that a terminating run cannot use up: a walk visits each page at most once, and a scan
moves on by at least one page.
-/

namespace Zeronix

def PAGE_SIZE : Nat := 4096
def PAGE_SHIFT : Nat := 12
def MAX_ORDER : Nat := 11

/-- `MAX_SUPPORTED_PAGES` of `main.rs`: the size of the static metadata array. -/
def MAX_SUPPORTED_PAGES : Nat := 131072

/-! ### Page metadata -/

structure PageInfo where
  order : UInt8
  flags : UInt8
  next : UInt32
  prev : UInt32
  deriving DecidableEq, Repr

namespace PageInfo

def NONE : UInt32 := 0

/-- A link field as an optional page number. -/
def ofLink (v : UInt32) : Option Nat := if v = NONE then none else some (v - 1).toNat

/-- An optional page number as a link field: `(x + 1) as u32` truncates. -/
def toLink : Option Nat → UInt32
  | none => NONE
  | some x => UInt32.ofNat (x + 1)

def next? (p : PageInfo) : Option Nat := ofLink p.next

def setNext (p : PageInfo) (v : Option Nat) : PageInfo := { p with next := toLink v }

def prev? (p : PageInfo) : Option Nat := ofLink p.prev

def setPrev (p : PageInfo) (v : Option Nat) : PageInfo := { p with prev := toLink v }

def isHead (p : PageInfo) : Bool := p.flags &&& 1 != 0

def setHead (p : PageInfo) (v : Bool) : PageInfo :=
  { p with flags := if v then p.flags ||| 1 else p.flags &&& ~~~1 }

def isFree (p : PageInfo) : Bool := p.flags &&& 2 != 0

def setFree (p : PageInfo) (v : Bool) : PageInfo :=
  { p with flags := if v then p.flags ||| 2 else p.flags &&& ~~~2 }

def setOrder (p : PageInfo) (order : Nat) : PageInfo := { p with order := UInt8.ofNat order }

/-- What `new` writes into every entry. -/
def blank : PageInfo := { order := 255, flags := 0, next := NONE, prev := NONE }

instance : Inhabited PageInfo := ⟨blank⟩

end PageInfo

/-! ### The memory map -/

/-- An area of the boot loader's memory map; type `1` is usable memory. -/
structure MemoryArea where
  startAddress : UInt64
  endAddress : UInt64
  typ : UInt32
  deriving DecidableEq, Repr

def MemoryArea.usable (a : MemoryArea) : Bool := a.typ == 1

/-- `align_up` of `pagealloc.rs`: the sum `addr + align` is taken first. -/
def alignUp (addr align : Nat) : Option Nat := do
  let s ← Word.add addr align
  return (s - 1) &&& Word.not (align - 1)

def alignDown (addr align : Nat) : Nat := addr &&& Word.not (align - 1)

/-! ### The allocator -/

structure BuddyAllocator where
  metadata : List PageInfo
  freeHeads : List (Option Nat)
  totalPages : Nat
  deriving DecidableEq, Repr

namespace BuddyAllocator

/-- Write one metadata entry; an index out of range panics. -/
def modify (b : BuddyAllocator) (pfn : Nat) (f : PageInfo → PageInfo) : Option BuddyAllocator :=
  if pfn < b.metadata.length then some { b with metadata := b.metadata.modify pfn f } else none

/-- Write one list head; an index out of range panics. -/
def setHead (b : BuddyAllocator) (order : Nat) (v : Option Nat) : Option BuddyAllocator :=
  if order < b.freeHeads.length then some { b with freeHeads := b.freeHeads.set order v } else none

/-- `for i in 0..n { metadata[pfn + i] = f(i, metadata[pfn + i]) }`. -/
def updateRange (b : BuddyAllocator) (pfn : Nat) (f : Nat → PageInfo → PageInfo) :
    Nat → Option BuddyAllocator
  | 0 => some b
  | n + 1 => do
    let b ← updateRange b pfn f n
    b.modify (pfn + n) (f n)

/-- `if let Some(n) = node { metadata[n].set_prev(v) }`. -/
def setPrevAt (b : BuddyAllocator) (node v : Option Nat) : Option BuddyAllocator :=
  match node with
  | some n => b.modify n (·.setPrev v)
  | none => some b

/-- `if let Some(p) = node { metadata[p].set_next(v) } else { free_heads[order] = v }`. -/
def setNextAt (b : BuddyAllocator) (node : Option Nat) (order : Nat) (v : Option Nat) :
    Option BuddyAllocator :=
  match node with
  | some p => b.modify p (·.setNext v)
  | none => b.setHead order v

def pushFree (b : BuddyAllocator) (pfn order : Nat) : Option BuddyAllocator := do
  let head ← b.freeHeads[order]?
  let b ← b.modify pfn fun p => ((p.setFree true).setNext head).setPrev none
  let b ← b.setPrevAt head (some pfn)
  b.setHead order (some pfn)

def removeFromFree (b : BuddyAllocator) (pfn order : Nat) : Option BuddyAllocator := do
  let node ← b.metadata[pfn]?
  let prev := node.prev?
  let next := node.next?
  let b ← b.setNextAt prev order next
  b.setPrevAt next prev

/-! ### Building the free lists -/

/-- The start of the next reserved range above `start`, at most `stop`. -/
def nextBoundary (reserved : List (Nat × Nat)) (start stop : Nat) : Nat :=
  min (((reserved.filter fun r => start < r.1).map Prod.fst).min?.getD stop) stop

/-- The order `add_region` gives the block at `start` when `pages` pages are available. -/
def regionOrder (start pages : Nat) : Nat :=
  let orderByAlign := Word.trailingZeros start - PAGE_SHIFT
  let orderBySize := min (64 - 1 - Word.leadingZeros pages) (MAX_ORDER - 1)
  min (min orderByAlign orderBySize) (MAX_ORDER - 1)

/-- The `while start < end` loop of `add_region`. -/
def addRegionLoop (reserved : List (Nat × Nat)) (stop : Nat) :
    Nat → BuddyAllocator → Nat → Option BuddyAllocator
  | 0, b, start => if start < stop then none else some b
  | fuel + 1, b, start =>
    if start < stop then
      match reserved.find? fun r => decide (r.1 ≤ start) && decide (start < r.2) with
      | some r => do
        let start ← alignUp r.2 PAGE_SIZE
        addRegionLoop reserved stop fuel b start
      | none =>
        let size := nextBoundary reserved start stop - start
        let pages := size >>> PAGE_SHIFT
        if pages = 0 then
          addRegionLoop reserved stop fuel b (Word.saturatingAdd start PAGE_SIZE)
        else
          let order := regionOrder start pages
          let blockPages := 1 <<< order
          let pfn := start >>> PAGE_SHIFT
          if pfn + blockPages > b.totalPages then
            some b
          else do
            let b ← b.updateRange pfn (fun i p =>
              ((((p.setOrder order).setHead (i == 0)).setFree true).setNext none).setPrev none)
              blockPages
            let b ← b.pushFree pfn order
            let start ← Word.add start (blockPages * PAGE_SIZE)
            addRegionLoop reserved stop fuel b start
    else some b

def addRegion (b : BuddyAllocator) (start stop : Nat) (reserved : List (Nat × Nat)) :
    Option BuddyAllocator := do
  let start ← alignUp start PAGE_SIZE
  let stop := alignDown stop PAGE_SIZE
  addRegionLoop reserved stop ((stop - start) / PAGE_SIZE) b start

def new (metadata : List PageInfo) (memMap : List MemoryArea) (reserved : List (Nat × Nat)) :
    Option BuddyAllocator :=
  let b : BuddyAllocator :=
    { metadata := metadata.map fun _ => PageInfo.blank
      freeHeads := List.replicate MAX_ORDER none
      totalPages := metadata.length }
  (memMap.filter (·.usable)).foldlM
    (fun b area => b.addRegion area.startAddress.toNat area.endAddress.toNat reserved) b

/-! ### Allocation -/

/-- The `while let` of `find_free`, on at most `fuel` pages. -/
def walkFree (b : BuddyAllocator) (pred : Nat → Bool) : Nat → Option Nat → Option (Option Nat)
  | _, none => some none
  | 0, some _ => none
  | fuel + 1, some pfn =>
    if pred pfn then some (some pfn)
    else do
      let node ← b.metadata[pfn]?
      walkFree b pred fuel node.next?

def findFree (b : BuddyAllocator) (order : Nat) (pred : Nat → Bool) : Option (Option Nat) := do
  let current ← b.freeHeads[order]?
  walkFree b pred b.totalPages current

/-- `while split > order { .. }` with `split` counting down from `order + n`. -/
def splitLoop (b : BuddyAllocator) (pfn order : Nat) : Nat → Option BuddyAllocator
  | 0 => some b
  | n + 1 => do
    let split := order + n
    let buddyPfn := pfn ^^^ (1 <<< split)
    let b ← b.updateRange buddyPfn (fun i p =>
      ((p.setOrder split).setHead (i == 0)).setFree true) (1 <<< split)
    let b ← b.pushFree buddyPfn split
    splitLoop b pfn order n

/-- The body of the `for o in order..MAX_ORDER` loop once `find_free(o)` found `pfn`. -/
def takeBlock (b : BuddyAllocator) (pfn o order : Nat) : Option BuddyAllocator := do
  let b ← b.removeFromFree pfn o
  let b ← b.modify pfn (·.setFree false)
  let b ← b.modify pfn (·.setNext none)
  let b ← b.modify pfn (·.setPrev none)
  let b ← b.splitLoop pfn order (o - order)
  b.updateRange pfn (fun i p => ((p.setOrder order).setFree false).setHead (i == 0)) (1 <<< order)

/-- The `for o in order..MAX_ORDER` loop, with `n` orders left to try. -/
def allocateFrom (b : BuddyAllocator) (order : Nat) (pred : Nat → Bool) :
    Nat → Option (Option Nat × BuddyAllocator)
  | 0 => some (none, b)
  | n + 1 => do
    let o := MAX_ORDER - (n + 1)
    match ← b.findFree o pred with
    | some pfn =>
      let b ← b.takeBlock pfn o order
      return (some (pfn * PAGE_SIZE), b)
    | none => allocateFrom b order pred n

def allocateWhere (b : BuddyAllocator) (order : Nat) (pred : Nat → Bool) :
    Option (Option Nat × BuddyAllocator) :=
  if order ≥ MAX_ORDER then some (none, b) else b.allocateFrom order pred (MAX_ORDER - order)

def allocate (b : BuddyAllocator) (order : Nat) : Option (Option Nat × BuddyAllocator) :=
  b.allocateWhere order fun _ => true

/-- The condition `allocate_below` puts on the first page of a block. -/
def endsBelow (order limit pfn : Nat) : Bool :=
  match Word.add (pfn * PAGE_SIZE) ((1 <<< order) * PAGE_SIZE) with
  | some stop => decide (stop ≤ limit)
  | none => false

def allocateBelow (b : BuddyAllocator) (order limit : Nat) :
    Option (Option Nat × BuddyAllocator) :=
  b.allocateWhere order (endsBelow order limit)

/-! ### Deallocation -/

/-- The merging `loop` of `deallocate`; it runs at most `MAX_ORDER` times, since `order`
grows with every merge. -/
def mergeLoop : Nat → BuddyAllocator → Nat → Nat → Option (BuddyAllocator × Nat × Nat)
  | 0, _, _, _ => none
  | fuel + 1, b, currentPfn, order =>
    if order + 1 ≥ MAX_ORDER then some (b, currentPfn, order)
    else
      let buddyPfn := currentPfn ^^^ (1 <<< order)
      if buddyPfn ≥ b.totalPages then some (b, currentPfn, order)
      else do
        let buddy ← b.metadata[buddyPfn]?
        if !buddy.isFree || buddy.order.toNat != order || !buddy.isHead then
          some (b, currentPfn, order)
        else
          let b ← b.removeFromFree buddyPfn order
          mergeLoop fuel b (min currentPfn buddyPfn) (order + 1)

def deallocate (b : BuddyAllocator) (addr : Nat) : Option BuddyAllocator := do
  let pfn := addr / PAGE_SIZE
  let info ← b.metadata[pfn]?
  if !info.isHead then none
  else if info.isFree then none
  else
    let (b, currentPfn, order) ← mergeLoop MAX_ORDER b pfn info.order.toNat
    let b ← b.updateRange currentPfn (fun i p =>
      ((p.setOrder order).setFree true).setHead (i == 0)) (1 <<< order)
    b.pushFree currentPfn order

end BuddyAllocator

end Zeronix
