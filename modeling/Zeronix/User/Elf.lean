import Zeronix.Lib.Word

/-!
# The ELF loader's parser

`src/user/elf.rs`: a 64-byte header and the first program header of type `PT_LOAD`.  The entry
point names one of the built-in programs.

The outer `Option` of the answer is the panic of an overflowing `+` in the dev profile; the two
sums over program headers are the only ones that can.
-/

namespace Zeronix

namespace Elf

def ELF_HEADER_SIZE : Nat := 64
def PROGRAM_HEADER_SIZE : Nat := 56
def PT_LOAD : Nat := 1
def ET_EXEC : Nat := 2
def EM_X86_64 : Nat := 62
def EV_CURRENT : Nat := 1
def ENTRY_BASE : Nat := 0x400000
def ENTRY_STRIDE : Nat := 0x1000

inductive ElfError where
  | TooSmall
  | BadMagic
  | Unsupported
  | Truncated
  | MissingLoadSegment
  | UnknownProgram
  deriving DecidableEq, Repr

inductive ProgramId where
  | Shell
  | Ls
  | Rm
  | Mv
  | Cp
  | Touch
  | Cat
  | Echo
  | Sleep
  | Count
  deriving DecidableEq, Repr

namespace ProgramId

def ALL : List ProgramId := [Shell, Ls, Rm, Mv, Cp, Touch, Cat, Echo, Sleep, Count]

def name : ProgramId → String
  | Shell => "shell"
  | Ls => "ls"
  | Rm => "rm"
  | Mv => "mv"
  | Cp => "cp"
  | Touch => "touch"
  | Cat => "cat"
  | Echo => "echo"
  | Sleep => "sleep"
  | Count => "count"

def fromName (name : String) : Option ProgramId := ALL.find? fun program => program.name == name

/-- `self as u64`. -/
def toNat : ProgramId → Nat
  | Shell => 1
  | Ls => 2
  | Rm => 3
  | Mv => 4
  | Cp => 5
  | Touch => 6
  | Cat => 7
  | Echo => 8
  | Sleep => 9
  | Count => 10

def entry (program : ProgramId) : Nat := ENTRY_BASE + program.toNat * ENTRY_STRIDE

def fromEntry (entry : Nat) : Option ProgramId := do
  let offset ← Word.sub entry ENTRY_BASE
  if offset % ENTRY_STRIDE ≠ 0 then none
  else ALL.find? fun program => program.toNat == offset / ENTRY_STRIDE

end ProgramId

structure LoadSegment where
  offset : Nat
  virtAddr : Nat
  fileSize : Nat
  memSize : Nat
  flags : Nat
  deriving DecidableEq, Repr

structure ParsedElf where
  entry : Nat
  program : ProgramId
  load : LoadSegment
  deriving DecidableEq, Repr

/-! ### Reading fields -/

/-- The number that bytes spell, lowest first. -/
def fromLeBytes (bytes : List UInt8) : Nat := bytes.foldr (fun b n => b.toNat + 256 * n) 0

/-- `image.get(offset..offset + n)`, read as a little-endian number. -/
def readLe (image : List UInt8) (offset n : Nat) : Except ElfError Nat :=
  if offset + n ≤ image.length then .ok (fromLeBytes ((image.drop offset).take n))
  else .error .Truncated

def readU16 (image : List UInt8) (offset : Nat) : Except ElfError Nat := readLe image offset 2

def readU32 (image : List UInt8) (offset : Nat) : Except ElfError Nat := readLe image offset 4

def readU64 (image : List UInt8) (offset : Nat) : Except ElfError Nat := readLe image offset 8

/-! ### Parsing -/

/-- What the rest of `parse` needs of the header. -/
structure Header where
  entry : Nat
  phoff : Nat
  phentsize : Nat
  phnum : Nat
  program : ProgramId

def checkIdent (image : List UInt8) : Except ElfError Unit :=
  if image.length < ELF_HEADER_SIZE then .error .TooSmall
  else if image.take 4 ≠ [0x7f, 0x45, 0x4c, 0x46] then .error .BadMagic
  else if image.getD 4 0 ≠ 2 ∨ image.getD 5 0 ≠ 1 ∨ image.getD 6 0 ≠ 1 then .error .Unsupported
  else .ok ()

def checkMachine (image : List UInt8) : Except ElfError Unit := do
  let eType ← readU16 image 16
  let eMachine ← readU16 image 18
  let eVersion ← readU32 image 20
  if eType ≠ ET_EXEC ∨ eMachine ≠ EM_X86_64 ∨ eVersion ≠ EV_CURRENT then .error .Unsupported
  else .ok ()

def parseHeader (image : List UInt8) : Except ElfError Header := do
  checkIdent image
  checkMachine image
  let entry ← readU64 image 24
  let phoff ← readU64 image 32
  let ehsize ← readU16 image 52
  let phentsize ← readU16 image 54
  let phnum ← readU16 image 56
  if ehsize ≠ ELF_HEADER_SIZE ∨ phentsize ≠ PROGRAM_HEADER_SIZE ∨ phnum = 0 then
    .error .Unsupported
  else match ProgramId.fromEntry entry with
    | none => .error .UnknownProgram
    | some program => .ok { entry, phoff, phentsize, phnum, program }

/-- The body of the loop over program headers; `none` is its `continue`. -/
def readProgramHeader (image : List UInt8) (offset : Nat) : Except ElfError (Option LoadSegment) := do
  let pType ← readU32 image offset
  if pType ≠ PT_LOAD then .ok none
  else
    let pFlags ← readU32 image (offset + 4)
    let pOffset ← readU64 image (offset + 8)
    let pVaddr ← readU64 image (offset + 16)
    let pFilesz ← readU64 image (offset + 32)
    let pMemsz ← readU64 image (offset + 40)
    match Word.add pOffset pFilesz with
    | none => .error .Truncated
    | some stop =>
      if stop > image.length then .error .Truncated
      else if pMemsz < pFilesz then .error .Unsupported
      else .ok (some {
        offset := pOffset, virtAddr := pVaddr, fileSize := pFilesz, memSize := pMemsz,
        flags := pFlags })

/-- The loop over program headers, from `index` on with `n` to go. -/
def findLoad (image : List UInt8) (phoff phentsize : Nat) :
    Nat → Nat → Option (Except ElfError (Option LoadSegment))
  | _, 0 => some (.ok none)
  | index, n + 1 => do
    let offset ← Word.add phoff (index * phentsize)
    let stop ← Word.add offset PROGRAM_HEADER_SIZE
    if stop > image.length then some (.error .Truncated)
    else match readProgramHeader image offset with
      | .error e => some (.error e)
      | .ok none => findLoad image phoff phentsize (index + 1) n
      | .ok (some load) => some (.ok (some load))

def parse (image : List UInt8) : Option (Except ElfError ParsedElf) :=
  match parseHeader image with
  | .error e => some (.error e)
  | .ok h => (findLoad image h.phoff h.phentsize 0 h.phnum).map fun
    | .error e => .error e
    | .ok none => .error .MissingLoadSegment
    | .ok (some load) => .ok { entry := h.entry, program := h.program, load := load }

/-! ### Building images -/

/-- `n` bytes of a number, lowest first. -/
def toLeBytes (value : Nat) : Nat → List UInt8
  | 0 => []
  | n + 1 => UInt8.ofNat value :: toLeBytes (value / 256) n

/-- `image[offset..offset + bytes.len()].copy_from_slice(bytes)`. -/
def copyFromSlice (image : List UInt8) (offset : Nat) (bytes : List UInt8) : List UInt8 :=
  image.take offset ++ bytes ++ image.drop (offset + bytes.length)

def writeU16 (image : List UInt8) (offset value : Nat) : List UInt8 :=
  copyFromSlice image offset (toLeBytes value 2)

def writeU32 (image : List UInt8) (offset value : Nat) : List UInt8 :=
  copyFromSlice image offset (toLeBytes value 4)

def writeU64 (image : List UInt8) (offset value : Nat) : List UInt8 :=
  copyFromSlice image offset (toLeBytes value 8)

/-- The bytes of an ASCII text. -/
def asciiBytes (text : String) : List UInt8 := text.toList.map fun c => UInt8.ofNat c.toNat

def SYS_EXIT : Nat := 3
def SYS_WRITE : Nat := 6
def STDOUT : Nat := 1

/-- `mov eax, SYS_WRITE; mov edi, STDOUT; lea rsi, [rip + message]; mov edx, message.len();
syscall; mov eax, SYS_EXIT; xor edi, edi; syscall; jmp $`, and the message. -/
def userProgramCode (program : ProgramId) : List UInt8 :=
  let message := asciiBytes "exec /bin/" ++ asciiBytes program.name ++ asciiBytes " ok\r\n"
  let code := 0xb8 :: toLeBytes SYS_WRITE 4 ++ 0xbf :: toLeBytes STDOUT 4
  let leaStart := code.length
  let code := code ++ [0x48, 0x8d, 0x35, 0, 0, 0, 0]
  let leaNext := code.length
  let code := code ++ 0xba :: toLeBytes message.length 4 ++ [0x0f, 0x05] ++
    0xb8 :: toLeBytes SYS_EXIT 4 ++ [0x31, 0xff] ++ [0x0f, 0x05] ++ [0xeb, 0xfe]
  copyFromSlice code (leaStart + 3) (toLeBytes (code.length - leaNext) 4) ++ message

/-- `write_u64(image, 40, 0)`, `write_u64(image, 48, 0)` and the zero fields after `phnum` are
kept as the source has them. -/
def buildProgramImage (program : ProgramId) : List UInt8 :=
  let payload := userProgramCode program
  let payloadOffset := ELF_HEADER_SIZE + PROGRAM_HEADER_SIZE
  let image := List.replicate (payloadOffset + payload.length) 0
  let image := copyFromSlice image 0 [0x7f, 0x45, 0x4c, 0x46]
  let image := (((image.set 4 2).set 5 1).set 6 1).set 7 0
  let image := writeU16 image 16 ET_EXEC
  let image := writeU16 image 18 EM_X86_64
  let image := writeU32 image 20 EV_CURRENT
  let image := writeU64 image 24 program.entry
  let image := writeU64 image 32 ELF_HEADER_SIZE
  let image := writeU64 image 40 0
  let image := writeU64 image 48 0
  let image := writeU16 image 52 ELF_HEADER_SIZE
  let image := writeU16 image 54 PROGRAM_HEADER_SIZE
  let image := writeU16 image 56 1
  let image := writeU16 image 58 0
  let image := writeU16 image 60 0
  let image := writeU16 image 62 0
  let ph := ELF_HEADER_SIZE
  let image := writeU32 image ph PT_LOAD
  let image := writeU32 image (ph + 4) 0x5
  let image := writeU64 image (ph + 8) payloadOffset
  let image := writeU64 image (ph + 16) program.entry
  let image := writeU64 image (ph + 24) program.entry
  let image := writeU64 image (ph + 32) payload.length
  let image := writeU64 image (ph + 40) payload.length
  let image := writeU64 image (ph + 48) 0x1000
  copyFromSlice image payloadOffset payload

end Elf

end Zeronix
