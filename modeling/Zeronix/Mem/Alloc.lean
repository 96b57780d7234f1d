import Zeronix.AllocLayout
import Zeronix.IntrusiveList
import Zeronix.Mem.PageAlloc

/-!
# The kernel heap

`src/mem/alloc.rs`: a first-fit allocator over a list of free blocks in address order.
All its data lives in the memory it manages.  A block starts with a `HeapNode`, its size
at `+0` and its list node at `+8`; the word below the user pointer holds the address of
the block, so that `dealloc` finds its way back.

The functions work on the bytes of memory, around the list head at the address `head` of
the static allocator.  `none` is a panic or a loop that does not end; the two walks along
the free list run on fuel that a terminating walk cannot use up, since it visits no
address twice.  The chunks that the buddy allocator answers with during one `alloc` are an
argument, the list of their physical addresses; when it is used up, `grow_heap` fails.
-/

namespace Zeronix

def KERNEL_VMA : Nat := 0xFFFF800000000000
def CHUNK_ORDER : Nat := MAX_ORDER - 1
def CHUNK_SIZE : Nat := PAGE_SIZE * (1 <<< CHUNK_ORDER)
def BACK_PTR_SIZE : Nat := 8

/-- `size_of::<HeapNode>()`. -/
def HEAP_NODE_SIZE : Nat := 24
def MIN_FREE_BLOCK_SIZE : Nat := HEAP_NODE_SIZE + BACK_PTR_SIZE + 1

def allocationGeometry : AllocationGeometry where
  headerSize := HEAP_NODE_SIZE
  blockAlign := 8
  backPtrSize := BACK_PTR_SIZE

namespace HeapNode

/-- The list node of a block. -/
def listNode (block : Nat) : Nat := block + 8

/-- `container_of_mut!(node, list_node, HeapNode)`. -/
def ofListNode (node : Nat) : Nat := node - 8

def size (m : Memory) (block : Nat) : Nat := m.load block

def setSize (m : Memory) (block v : Nat) : Memory := m.store block v

/-- `HeapNode::init_at`: the whole header is written, with null links, and then the links
are pointed at the node itself. -/
def initAt (m : Memory) (block size : Nat) : Memory :=
  let m := setSize m block size
  let m := ListNode.setNext m (listNode block) 0
  let m := ListNode.setPrev m (listNode block) 0
  ListNode.initAt m (listNode block)

end HeapNode

namespace Heap

open HeapNode

def ensureHeadInitialized (m : Memory) (head : Nat) : Memory :=
  if ListNode.next m head = 0 ∨ ListNode.prev m head = 0 then ListNode.initAt m head else m

def blocksAreAdjacent (m : Memory) (left right : Nat) : Bool :=
  Word.saturatingAdd left (size m left) == right

/-- The `while` loop of `insert_and_coalesce`: the neighbours between which the block at
`block` belongs. -/
def findSlot (m : Memory) (head block : Nat) : Nat → Nat → Nat → Option (Nat × Nat)
  | 0, _, _ => none
  | fuel + 1, prev, current =>
    if current = head then some (prev, current)
    else if ofListNode current ≥ block then some (prev, current)
    else findSlot m head block fuel current (ListNode.next m current)

/-- Link the block between its neighbours. -/
def linkBlock (m : Memory) (block prev current : Nat) : Memory :=
  let node := listNode block
  let m := ListNode.setPrev m node prev
  let m := ListNode.setNext m node current
  let m := ListNode.setNext m prev node
  ListNode.setPrev m current node

/-- Add the size of `right` to `left` and take `right` off the list. -/
def absorb (m : Memory) (left right : Nat) : Option Memory := do
  let sum ← Word.add (size m left) (size m right)
  return ListNode.listRemove (setSize m left sum) (listNode right)

/-- Merge a block with the free block before it; the answer is the block that remains. -/
def mergePrev (m : Memory) (head prev block : Nat) : Option (Memory × Nat) :=
  if prev ≠ head ∧ blocksAreAdjacent m (ofListNode prev) block then
    (absorb m (ofListNode prev) block).map fun m => (m, ofListNode prev)
  else some (m, block)

/-- Merge a block with the free block after it. -/
def mergeNext (m : Memory) (head merged : Nat) : Option Memory :=
  let next := ListNode.next m (listNode merged)
  if next ≠ head ∧ blocksAreAdjacent m merged (ofListNode next) then
    absorb m merged (ofListNode next)
  else some m

def insertAndCoalesce (m : Memory) (head block : Nat) : Option Memory := do
  let (prev, current) ← findSlot m head block Word.modulus head (ListNode.next m head)
  let m := linkBlock m block prev current
  let (m, merged) ← mergePrev m head prev block
  mergeNext m head merged

/-- What is left of a block goes back to the free list, if it is large enough. -/
def keepRemainder (m : Memory) (head block used remaining : Nat) : Option Memory :=
  if remaining ≥ MIN_FREE_BLOCK_SIZE then do
    let freeBlock ← Word.add block used
    insertAndCoalesce (HeapNode.initAt m freeBlock remaining) head freeBlock
  else some m

/-- The part of `allocate_from_free_list` after a block was found to fit. -/
def takeFromBlock (m : Memory) (head block blockSize : Nat) (p : AllocationPlacement) :
    Option Memory := do
  let m := ListNode.listRemove m (listNode block)
  let remaining ← Word.sub blockSize p.usedSize
  let m ← keepRemainder m head block p.usedSize remaining
  let m := setSize m block p.usedSize
  let backPtr ← Word.sub p.userPtr BACK_PTR_SIZE
  return m.store backPtr block

/-- The `while` loop of `allocate_from_free_list`. -/
def firstFit (m : Memory) (head : Nat) (layout : Layout) :
    Nat → Nat → Option (Option (Nat × Nat × AllocationPlacement))
  | 0, _ => none
  | fuel + 1, node =>
    if node = head then some none
    else
      let block := ofListNode node
      match AllocLayout.allocationForBlock block (size m block) layout allocationGeometry with
      | some p => some (some (block, size m block, p))
      | none => firstFit m head layout fuel (ListNode.next m node)

def allocateFromFreeList (m : Memory) (head : Nat) (layout : Layout) :
    Option (Option Nat × Memory) :=
  if ListNode.listEmpty m head then some (none, m)
  else do
    match ← firstFit m head layout Word.modulus (ListNode.next m head) with
    | none => some (none, m)
    | some (block, blockSize, p) => do
      let m ← takeFromBlock m head block blockSize p
      return (some p.userPtr, m)

/-- `grow_heap` once the buddy allocator answered with the chunk at `phys`. -/
def growHeap (m : Memory) (head phys : Nat) : Option Memory := do
  let block ← Word.add phys KERNEL_VMA
  insertAndCoalesce (HeapNode.initAt m block CHUNK_SIZE) head block

/-- The smallest chunk that could serve a layout. -/
def required (layout : Layout) : Nat :=
  (AllocLayout.requiredBlockSize 0 layout allocationGeometry).getD (Word.modulus - 1)

/-- The `loop` of `alloc`; it answers the pointer, `none` for null, with the chunks it did
not ask for. -/
def allocLoop (head : Nat) (layout : Layout) :
    List Nat → Memory → Option (Option Nat × Memory × List Nat)
  | supply, m => do
    match ← allocateFromFreeList m head layout with
    | (some ptr, m) => some (some ptr, m, supply)
    | (none, m) =>
      if required layout > CHUNK_SIZE then some (none, m, supply)
      else match supply with
        | [] => some (none, m, [])
        | phys :: supply => do
          let m ← growHeap m head phys
          allocLoop head layout supply m

def alloc (m : Memory) (head : Nat) (layout : Layout) (supply : List Nat) :
    Option (Option Nat × Memory × List Nat) := do
  let layout ← AllocLayout.normalizeLayout layout 8
  allocLoop head layout supply (ensureHeadInitialized m head)

def headerFromUserPtr (m : Memory) (ptr : Nat) : Option Nat := do
  let backPtr ← Word.sub ptr BACK_PTR_SIZE
  return m.load backPtr

def dealloc (m : Memory) (head ptr : Nat) : Option Memory :=
  if ptr = 0 then some m
  else do
    let header ← headerFromUserPtr m ptr
    let m := ensureHeadInitialized m head
    insertAndCoalesce (ListNode.initAt m (listNode header)) head header

end Heap

end Zeronix
