import Zeronix.User.Elf

/-!
# Parsing in the two build profiles

`parseIn` is `elf::parse` with every operator on `usize` and every index of the source: in the
profile `dev` a sum or product that does not fit panics, and in `release` it wraps.  An index out
of range panics in both.  The outer `Option` is the panic.

Both profiles compute `parseExact`, the parser over unbounded integers, unless the first header
already ends above the address space: there `dev` panics, and `release` wraps to an offset that the
next slice refuses (`parseIn_dev`, `parseIn_release`).  `Format` says which images `parseExact`
accepts.
-/

namespace Zeronix

namespace Elf

/-- The bytes of a Rust slice: at most `isize::MAX` of them. -/
abbrev Slice := { image : List UInt8 // image.length < 2 ^ 63 }

/-! ### The operators -/

inductive Profile where
  | dev
  | release
  deriving DecidableEq, Repr

namespace Profile

def add : Profile → Nat → Nat → Option Nat
  | dev, x, y => Word.add x y
  | release, x, y => some ((x + y) % Word.modulus)

def mul : Profile → Nat → Nat → Option Nat
  | dev, x, y => Word.mul x y
  | release, x, y => some (x * y % Word.modulus)

theorem add_of_lt (p : Profile) {x y : Nat} (h : x + y < Word.modulus) :
    p.add x y = some (x + y) := by
  cases p with
  | dev => exact if_pos h
  | release => exact congrArg some (Nat.mod_eq_of_lt h)

theorem mul_of_lt (p : Profile) {x y : Nat} (h : x * y < Word.modulus) :
    p.mul x y = some (x * y) := by
  cases p with
  | dev => exact if_pos h
  | release => exact congrArg some (Nat.mod_eq_of_lt h)

end Profile

/-- A computation that answers, fails with an error, or panics. -/
abbrev Parse (α : Type) := ExceptT ElfError Option α

/-- `image[i]`. -/
def index (image : List UInt8) (i : Nat) : Parse UInt8 := liftM image[i]?

/-- `image.get(start..stop)`. -/
def getRange (image : List UInt8) (start stop : Nat) : Option (List UInt8) :=
  if start ≤ stop ∧ stop ≤ image.length then some ((image.drop start).take (stop - start))
  else none

/-- `bytes[0]` to `bytes[n - 1]`. -/
def firstBytes (bytes : List UInt8) (n : Nat) : Option (List UInt8) :=
  if n ≤ bytes.length then some (bytes.take n) else none

def readIn (p : Profile) (image : List UInt8) (offset n : Nat) : Parse Nat := do
  let stop ← p.add offset n
  match getRange image offset stop with
  | none => throw .Truncated
  | some bytes => return fromLeBytes (← firstBytes bytes n)

def readU16In (p : Profile) (image : List UInt8) (offset : Nat) : Parse Nat :=
  readIn p image offset 2

def readU32In (p : Profile) (image : List UInt8) (offset : Nat) : Parse Nat :=
  readIn p image offset 4

def readU64In (p : Profile) (image : List UInt8) (offset : Nat) : Parse Nat :=
  readIn p image offset 8

/-! ### The parser -/

def checkByte (image : List UInt8) (i : Nat) (value : UInt8) : Parse Unit := do
  let byte ← index image i
  if byte ≠ value then throw .Unsupported

def checkIdentIn (image : List UInt8) : Parse Unit := do
  if image.length < ELF_HEADER_SIZE then throw .TooSmall
  else
    let magic ← getRange image 0 4
    if magic ≠ [0x7f, 0x45, 0x4c, 0x46] then throw .BadMagic
    else
      checkByte image 4 2
      checkByte image 5 1
      checkByte image 6 1

def checkMachineIn (p : Profile) (image : List UInt8) : Parse Unit := do
  let eType ← readU16In p image 16
  let eMachine ← readU16In p image 18
  let eVersion ← readU32In p image 20
  if eType ≠ ET_EXEC ∨ eMachine ≠ EM_X86_64 ∨ eVersion ≠ EV_CURRENT then throw .Unsupported

def parseHeaderIn (p : Profile) (image : List UInt8) : Parse Header := do
  checkIdentIn image
  checkMachineIn p image
  let entry ← readU64In p image 24
  let phoff ← readU64In p image 32
  let ehsize ← readU16In p image 52
  let phentsize ← readU16In p image 54
  let phnum ← readU16In p image 56
  if ehsize ≠ ELF_HEADER_SIZE ∨ phentsize ≠ PROGRAM_HEADER_SIZE ∨ phnum = 0 then
    throw .Unsupported
  else match ProgramId.fromEntry entry with
    | none => throw .UnknownProgram
    | some program => return { entry, phoff, phentsize, phnum, program }

/-- The body of the loop over program headers; `none` is its `continue`. -/
def readProgramHeaderIn (p : Profile) (image : List UInt8) (offset : Nat) :
    Parse (Option LoadSegment) := do
  let pType ← readU32In p image offset
  if pType ≠ PT_LOAD then return none
  else
    let pFlags ← readU32In p image (← p.add offset 4)
    let pOffset ← readU64In p image (← p.add offset 8)
    let pVaddr ← readU64In p image (← p.add offset 16)
    let pFilesz ← readU64In p image (← p.add offset 32)
    let pMemsz ← readU64In p image (← p.add offset 40)
    match Word.add pOffset pFilesz with
    | none => throw .Truncated
    | some stop =>
      if stop > image.length then throw .Truncated
      else if pMemsz < pFilesz then throw .Unsupported
      else return some {
        offset := pOffset, virtAddr := pVaddr, fileSize := pFilesz, memSize := pMemsz,
        flags := pFlags }

/-- The loop over program headers, from `index` on with `n` to go. -/
def findLoadIn (p : Profile) (image : List UInt8) (phoff phentsize : Nat) :
    Nat → Nat → Parse (Option LoadSegment)
  | _, 0 => return none
  | index, n + 1 => do
    let offset ← p.add phoff (← p.mul index phentsize)
    let stop ← p.add offset PROGRAM_HEADER_SIZE
    if stop > image.length then throw .Truncated
    else match ← readProgramHeaderIn p image offset with
      | none => findLoadIn p image phoff phentsize (index + 1) n
      | some load => return some load

def parseIn (p : Profile) (image : List UInt8) : Parse ParsedElf := do
  let h ← parseHeaderIn p image
  match ← findLoadIn p image h.phoff h.phentsize 0 h.phnum with
  | none => throw .MissingLoadSegment
  | some load => return { entry := h.entry, program := h.program, load := load }

/-! ### No operator leaves the range -/

theorem some_bind {α β : Type} {x : Except ElfError α} {f : α → Parse β}
    {g : α → Except ElfError β} (h : ∀ a, f a = some (g a)) :
    (show Parse α from some x) >>= f = some (x >>= g) := by
  cases x with
  | error e => rfl
  | ok a => exact h a

theorem bind_eq {α β : Type} {m : Parse α} {x : Except ElfError α} {f : α → Parse β}
    {g : α → Except ElfError β} (hm : m = some x) (h : ∀ a, f a = some (g a)) :
    m >>= f = some (x >>= g) := by
  rw [hm]
  exact some_bind h

theorem liftM_bind {α β : Type} (a : α) (f : α → Parse β) :
    (liftM (some a) : Parse α) >>= f = f a := rfl

theorem firstBytes_range {image : List UInt8} {offset n : Nat} (h : offset + n ≤ image.length) :
    firstBytes ((image.drop offset).take (offset + n - offset)) n =
      some ((image.drop offset).take n) := by
  have hlen : ((image.drop offset).take n).length = n := by
    rw [List.length_take, List.length_drop]
    omega
  rw [Nat.add_sub_cancel_left, firstBytes, if_pos (by omega), List.take_of_length_le (by omega)]

theorem readIn_eq (p : Profile) {image : List UInt8} {offset n : Nat}
    (h : offset + n < Word.modulus) : readIn p image offset n = some (readLe image offset n) := by
  unfold readIn readLe
  rw [p.add_of_lt h]
  by_cases hlen : offset + n ≤ image.length
  · have hrange : getRange image offset (offset + n) =
        some ((image.drop offset).take (offset + n - offset)) := if_pos ⟨by omega, hlen⟩
    show (match getRange image offset (offset + n) with | none => _ | some bytes => _) = _
    rw [hrange, if_pos hlen]
    dsimp only
    rw [firstBytes_range hlen]
    rfl
  · have hrange : getRange image offset (offset + n) = none := if_neg (by omega)
    show (match getRange image offset (offset + n) with | none => _ | some bytes => _) = _
    rw [hrange, if_neg hlen]
    rfl

theorem index_eq {image : List UInt8} {i : Nat} (h : i < image.length) :
    index image i = some (.ok (image.getD i 0)) := by
  rw [index, List.getD_eq_getElem?_getD, List.getElem?_eq_getElem h]
  rfl

theorem checkByte_eq {image : List UInt8} {i : Nat} (h : i < image.length) (value : UInt8) :
    checkByte image i value =
      some (if image.getD i 0 ≠ value then .error .Unsupported else .ok ()) := by
  rw [checkByte, index_eq h]
  show (if image.getD i 0 ≠ value then _ else _) = _
  split <;> rfl

/-- Two checks with the same error. -/
theorem refuse_bind (P Q : Prop) [Decidable P] [Decidable Q] (e : ElfError) :
    ((if P then .error e else .ok () : Except ElfError Unit) >>= fun _ =>
      if Q then .error e else .ok ()) = if P ∨ Q then .error e else .ok () := by
  by_cases hP : P
  · rw [if_pos hP, if_pos (Or.inl hP : P ∨ Q)]
    rfl
  · rw [if_neg hP]
    by_cases hQ : Q
    · rw [if_pos (Or.inr hQ : P ∨ Q), if_pos hQ]
      rfl
    · rw [if_neg (not_or.2 ⟨hP, hQ⟩), if_neg hQ]
      rfl

theorem checkIdentIn_eq (image : List UInt8) : checkIdentIn image = some (checkIdent image) := by
  unfold checkIdentIn checkIdent
  by_cases hlen : image.length < ELF_HEADER_SIZE
  · rw [if_pos hlen, if_pos hlen]
    rfl
  have hbound : 64 ≤ image.length := Nat.le_of_not_lt hlen
  have hrange : getRange image 0 4 = some (image.take 4) := if_pos ⟨by omega, by omega⟩
  rw [if_neg hlen, if_neg hlen, hrange]
  show (if image.take 4 ≠ _ then _ else _) = _
  by_cases hmagic : image.take 4 ≠ [0x7f, 0x45, 0x4c, 0x46]
  · rw [if_pos hmagic, if_pos hmagic]
    rfl
  rw [if_neg hmagic, if_neg hmagic]
  have hbytes := bind_eq (checkByte_eq (show 4 < image.length by omega) 2) fun _ =>
    bind_eq (checkByte_eq (show 5 < image.length by omega) 1) fun _ =>
      checkByte_eq (show 6 < image.length by omega) 1
  rw [hbytes, refuse_bind, refuse_bind]

theorem checkMachineIn_eq (p : Profile) (image : List UInt8) :
    checkMachineIn p image = some (checkMachine image) := by
  refine bind_eq (readIn_eq p (by decide)) fun eType => ?_
  refine bind_eq (readIn_eq p (by decide)) fun eMachine => ?_
  refine bind_eq (readIn_eq p (by decide)) fun eVersion => ?_
  split <;> rfl

theorem parseHeaderIn_eq (p : Profile) (image : List UInt8) :
    parseHeaderIn p image = some (parseHeader image) := by
  refine bind_eq (checkIdentIn_eq image) fun _ => ?_
  refine bind_eq (checkMachineIn_eq p image) fun _ => ?_
  refine bind_eq (readIn_eq p (by decide)) fun entry => ?_
  refine bind_eq (readIn_eq p (by decide)) fun phoff => ?_
  refine bind_eq (readIn_eq p (by decide)) fun ehsize => ?_
  refine bind_eq (readIn_eq p (by decide)) fun phentsize => ?_
  refine bind_eq (readIn_eq p (by decide)) fun phnum => ?_
  split
  · rfl
  · cases ProgramId.fromEntry entry <;> rfl

theorem readProgramHeaderIn_eq (p : Profile) {image : List UInt8} {offset : Nat}
    (h : offset + PROGRAM_HEADER_SIZE < Word.modulus) :
    readProgramHeaderIn p image offset = some (readProgramHeader image offset) := by
  have hsize : PROGRAM_HEADER_SIZE = 56 := rfl
  unfold readProgramHeaderIn readProgramHeader
  refine bind_eq (readIn_eq p (by omega)) fun pType => ?_
  split
  · rfl
  rw [p.add_of_lt (show offset + 4 < _ by omega), p.add_of_lt (show offset + 8 < _ by omega),
    p.add_of_lt (show offset + 16 < _ by omega), p.add_of_lt (show offset + 32 < _ by omega),
    p.add_of_lt (show offset + 40 < _ by omega)]
  simp only [liftM_bind]
  refine bind_eq (readIn_eq p (by omega)) fun pFlags => ?_
  refine bind_eq (readIn_eq p (by omega)) fun pOffset => ?_
  refine bind_eq (readIn_eq p (by omega)) fun pVaddr => ?_
  refine bind_eq (readIn_eq p (by omega)) fun pFilesz => ?_
  refine bind_eq (readIn_eq p (by omega)) fun pMemsz => ?_
  cases Word.add pOffset pFilesz with
  | none => rfl
  | some stop =>
    dsimp only
    split
    · rfl
    · split <;> rfl

/-- The loop over program headers, over unbounded integers. -/
def scan (image : List UInt8) (phoff : Nat) : Nat → Nat → Except ElfError (Option LoadSegment)
  | _, 0 => .ok none
  | index, n + 1 => do
    let offset := phoff + index * PROGRAM_HEADER_SIZE
    if offset + PROGRAM_HEADER_SIZE > image.length then .error .Truncated
    else match ← readProgramHeader image offset with
      | none => scan image phoff (index + 1) n
      | some load => return some load

/-- A header that ends in the file ends far below the limit of the words, and so does the next. -/
theorem findLoadIn_eq (p : Profile) {image : List UInt8} (hlen : image.length < 2 ^ 63)
    {phoff : Nat} (n : Nat) {index : Nat}
    (h : phoff + index * PROGRAM_HEADER_SIZE + PROGRAM_HEADER_SIZE < Word.modulus) :
    findLoadIn p image phoff PROGRAM_HEADER_SIZE index n = some (scan image phoff index n) := by
  induction n generalizing index with
  | zero => rfl
  | succ n ih =>
    unfold findLoadIn scan
    rw [p.mul_of_lt (by omega), liftM_bind, p.add_of_lt (by omega), liftM_bind, p.add_of_lt h,
      liftM_bind]
    dsimp only
    split
    · rfl
    case isFalse hle =>
      refine bind_eq (readProgramHeaderIn_eq p h) fun found => ?_
      cases found with
      | some load => rfl
      | none =>
        have hsize : PROGRAM_HEADER_SIZE = 56 := rfl
        have hmod : Word.modulus = 2 ^ 64 := rfl
        have hnext : (index + 1) * PROGRAM_HEADER_SIZE =
          index * PROGRAM_HEADER_SIZE + PROGRAM_HEADER_SIZE := Nat.succ_mul _ _
        exact ih (by omega)

/-- A product that overflows makes the sum overflow. -/
theorem findLoad_eq (image : List UInt8) (phoff phentsize index n : Nat) :
    findLoad image phoff phentsize index n = findLoadIn .dev image phoff phentsize index n := by
  induction n generalizing index with
  | zero => rfl
  | succ n ih =>
    unfold findLoad findLoadIn
    by_cases hoffset : phoff + index * phentsize < Word.modulus
    · have hadd : Word.add phoff (index * phentsize) = some (phoff + index * phentsize) :=
        if_pos hoffset
      rw [Profile.mul_of_lt _ (by omega), liftM_bind, Profile.add_of_lt _ hoffset, liftM_bind, hadd,
        Option.bind_eq_bind, Option.bind_some]
      by_cases hstop : phoff + index * phentsize + PROGRAM_HEADER_SIZE < Word.modulus
      · have hadd : Word.add (phoff + index * phentsize) PROGRAM_HEADER_SIZE =
          some (phoff + index * phentsize + PROGRAM_HEADER_SIZE) := if_pos hstop
        rw [Profile.add_of_lt _ hstop, liftM_bind, hadd, Option.bind_some]
        split
        · rfl
        · rw [readProgramHeaderIn_eq .dev hstop]
          cases readProgramHeader image (phoff + index * phentsize) with
          | error e => rfl
          | ok found =>
            cases found with
            | none => exact ih (index + 1)
            | some load => rfl
      · have hadd : Word.add (phoff + index * phentsize) PROGRAM_HEADER_SIZE = none := if_neg hstop
        rw [hadd]
        show none = ((liftM (Word.add _ _) : Parse Nat) >>= _)
        rw [hadd]
        rfl
    · have hadd : Word.add phoff (index * phentsize) = none := if_neg hoffset
      rw [hadd]
      show none = ((liftM (Word.mul _ _) : Parse Nat) >>= _)
      cases hmul : Word.mul index phentsize with
      | none => rfl
      | some product =>
        obtain ⟨-, rfl⟩ := Word.mul_eq_some.1 hmul
        show none = ((liftM (Word.add _ _) : Parse Nat) >>= _)
        rw [hadd]
        rfl

/-- `elf::parse` over unbounded integers. -/
def parseExact (image : List UInt8) : Except ElfError ParsedElf := do
  let h ← parseHeader image
  match ← scan image h.phoff 0 h.phnum with
  | none => .error .MissingLoadSegment
  | some load => return { entry := h.entry, program := h.program, load := load }

/-! ### Fields of an image -/

/-- The little-endian number in the `n` bytes at `offset`. -/
def field (image : List UInt8) (offset n : Nat) : Nat := fromLeBytes ((image.drop offset).take n)

theorem fromLeBytes_lt (bytes : List UInt8) : fromLeBytes bytes < 256 ^ bytes.length := by
  induction bytes with
  | nil => exact Nat.one_pos
  | cons b bytes ih =>
    have hb : b.toNat < 256 := b.toNat_lt
    have hstep : fromLeBytes (b :: bytes) = b.toNat + 256 * fromLeBytes bytes := rfl
    rw [hstep, List.length_cons, Nat.pow_succ]
    omega

theorem field_lt (image : List UInt8) (offset n : Nat) : field image offset n < 256 ^ n := by
  refine Nat.lt_of_lt_of_le (fromLeBytes_lt _) (Nat.pow_le_pow_right (by decide) ?_)
  exact List.length_take_le _ _

theorem readLe_eq {image : List UInt8} {offset n : Nat} (h : offset + n ≤ image.length) :
    readLe image offset n = .ok (field image offset n) := if_pos h

theorem find_toNat {k : Nat} {program : ProgramId} :
    ProgramId.ALL.find? (fun program => program.toNat == k) = some program ↔
      program.toNat = k := by
  constructor
  · intro h
    simpa using List.find?_some h
  · rintro rfl
    cases program <;> rfl

theorem fromEntry_eq_some {entry : Nat} {program : ProgramId} :
    ProgramId.fromEntry entry = some program ↔
      entry = ENTRY_BASE + program.toNat * ENTRY_STRIDE := by
  unfold ProgramId.fromEntry Word.sub ENTRY_STRIDE
  by_cases hle : ENTRY_BASE ≤ entry
  · rw [if_pos hle, Option.bind_eq_bind, Option.bind_some]
    by_cases hmod : (entry - ENTRY_BASE) % 0x1000 ≠ 0
    · rw [if_pos hmod]
      refine iff_of_false nofun ?_
      omega
    · rw [if_neg hmod, find_toNat]
      omega
  · rw [if_neg hle, Option.bind_eq_bind, Option.bind_none]
    refine iff_of_false nofun ?_
    omega

theorem toNat_bounds (program : ProgramId) : 1 ≤ program.toNat ∧ program.toNat ≤ 10 := by
  cases program <;> decide

/-- The header of an image that the parser goes on with, for the program `id`. -/
structure HeaderOk (image : List UInt8) (id : Nat) : Prop where
  length : 64 ≤ image.length
  magic : image.take 4 = [0x7f, 0x45, 0x4c, 0x46]
  cls : image.getD 4 0 = 2
  data : image.getD 5 0 = 1
  version : image.getD 6 0 = 1
  eType : field image 16 2 = 2
  eMachine : field image 18 2 = 62
  eVersion : field image 20 4 = 1
  entry : field image 24 8 = 0x400000 + id * 0x1000
  ehsize : field image 52 2 = 64
  phentsize : field image 54 2 = 56
  phnum : 1 ≤ field image 56 2
  id_pos : 1 ≤ id
  id_le : id ≤ 10

theorem checkIdent_eq_ok {image : List UInt8} : checkIdent image = .ok () ↔
    64 ≤ image.length ∧ image.take 4 = [0x7f, 0x45, 0x4c, 0x46] ∧ image.getD 4 0 = 2 ∧
      image.getD 5 0 = 1 ∧ image.getD 6 0 = 1 := by
  have hsize : ELF_HEADER_SIZE = 64 := rfl
  unfold checkIdent
  split_ifs with hlen hmagic hbytes
  · refine iff_of_false nofun ?_
    omega
  · exact iff_of_false nofun fun h => hmagic h.2.1
  · refine iff_of_false nofun ?_
    rintro ⟨-, -, hcls, hdata, hversion⟩
    simp only [hcls, hdata, hversion, ne_eq, not_true_eq_false, or_self] at hbytes
  · simp only [ne_eq, not_or, not_not] at hmagic hbytes
    exact iff_of_true rfl ⟨by omega, hmagic, hbytes⟩

theorem checkMachine_eq_ok {image : List UInt8} (hlen : 64 ≤ image.length) :
    checkMachine image = .ok () ↔
      field image 16 2 = 2 ∧ field image 18 2 = 62 ∧ field image 20 4 = 1 := by
  unfold checkMachine readU16 readU32
  rw [readLe_eq (show 16 + 2 ≤ _ by omega), readLe_eq (show 18 + 2 ≤ _ by omega),
    readLe_eq (show 20 + 4 ≤ _ by omega)]
  show (if _ then _ else _) = _ ↔ _
  split_ifs with hfields
  · refine iff_of_false nofun ?_
    rintro ⟨h₁, h₂, h₃⟩
    simp [h₁, h₂, h₃, ET_EXEC, EM_X86_64, EV_CURRENT] at hfields
  · simp only [ne_eq, not_or, not_not] at hfields
    exact iff_of_true rfl hfields

/-- The fields that `parse` reads after the machine. -/
theorem parseHeader_eq {image : List UInt8} (hident : checkIdent image = .ok ())
    (hmachine : checkMachine image = .ok ()) : parseHeader image =
      if field image 52 2 ≠ ELF_HEADER_SIZE ∨ field image 54 2 ≠ PROGRAM_HEADER_SIZE ∨
        field image 56 2 = 0 then .error .Unsupported
      else match ProgramId.fromEntry (field image 24 8) with
        | none => .error .UnknownProgram
        | some program => .ok ⟨field image 24 8, field image 32 8, field image 54 2,
            field image 56 2, program⟩ := by
  have hlen := (checkIdent_eq_ok.1 hident).1
  unfold parseHeader readU16 readU64
  rw [hident, hmachine, readLe_eq (show 24 + 8 ≤ _ by omega), readLe_eq (show 32 + 8 ≤ _ by omega),
    readLe_eq (show 52 + 2 ≤ _ by omega), readLe_eq (show 54 + 2 ≤ _ by omega),
    readLe_eq (show 56 + 2 ≤ _ by omega)]
  rfl

theorem parseHeader_eq_ok {image : List UInt8} {h : Header} : parseHeader image = .ok h ↔
    HeaderOk image h.program.toNat ∧ h.entry = field image 24 8 ∧ h.phoff = field image 32 8 ∧
      h.phentsize = PROGRAM_HEADER_SIZE ∧ h.phnum = field image 56 2 := by
  constructor
  · intro hok
    have hident : checkIdent image = .ok () := by
      cases hident : checkIdent image with
      | error e => simp [parseHeader, hident, bind, Except.bind] at hok
      | ok _ => rfl
    have hmachine : checkMachine image = .ok () := by
      cases hmachine : checkMachine image with
      | error e => simp [parseHeader, hident, hmachine, bind, Except.bind] at hok
      | ok _ => rfl
    rw [parseHeader_eq hident hmachine] at hok
    split at hok
    · cases hok
    case isFalse hsizes =>
      simp only [ne_eq, not_or, not_not] at hsizes
      obtain ⟨hehsize, hphentsize, hphnum⟩ := hsizes
      cases hentry : ProgramId.fromEntry (field image 24 8) with
      | none => simp [hentry] at hok
      | some program =>
        rw [hentry] at hok
        cases hok
        obtain ⟨hlen, hmagic, hcls, hdata, hversion⟩ := checkIdent_eq_ok.1 hident
        obtain ⟨heType, heMachine, heVersion⟩ := (checkMachine_eq_ok hlen).1 hmachine
        obtain ⟨hpos, hle⟩ := toNat_bounds program
        exact ⟨⟨hlen, hmagic, hcls, hdata, hversion, heType, heMachine, heVersion,
          fromEntry_eq_some.1 hentry, hehsize, hphentsize, by omega, hpos, hle⟩,
          rfl, rfl, hphentsize, rfl⟩
  · rintro ⟨ho, hentry, hphoff, hphentsize, hphnum⟩
    obtain ⟨entry, phoff, phentsize, phnum, program⟩ := h
    have hident := checkIdent_eq_ok.2 ⟨ho.length, ho.magic, ho.cls, ho.data, ho.version⟩
    have hmachine := (checkMachine_eq_ok ho.length).2 ⟨ho.eType, ho.eMachine, ho.eVersion⟩
    have hprogram : ProgramId.fromEntry (field image 24 8) = some program :=
      fromEntry_eq_some.2 ho.entry
    have hsizes : ¬ (field image 52 2 ≠ ELF_HEADER_SIZE ∨ field image 54 2 ≠ PROGRAM_HEADER_SIZE ∨
        field image 56 2 = 0) := by
      have := ho.phnum
      simp only [ne_eq, not_or, not_not]
      exact ⟨ho.ehsize, ho.phentsize, by omega⟩
    rw [parseHeader_eq hident hmachine, if_neg hsizes, hprogram]
    simp only at hentry hphoff hphentsize hphnum
    rw [hentry, hphoff, hphentsize, hphnum, ho.phentsize]
    rfl

theorem exists_program : ∀ id ≤ 10, 1 ≤ id → ∃ program ∈ ProgramId.ALL, program.toNat = id := by
  decide

theorem HeaderOk.parseHeader {image : List UInt8} {id : Nat} (h : HeaderOk image id) :
    ∃ program, program.toNat = id ∧ parseHeader image = .ok
      ⟨field image 24 8, field image 32 8, PROGRAM_HEADER_SIZE, field image 56 2, program⟩ := by
  obtain ⟨program, -, hprogram⟩ := exists_program id h.id_le h.id_pos
  refine ⟨program, hprogram, parseHeader_eq_ok.2 ⟨?_, rfl, rfl, rfl, rfl⟩⟩
  rw [hprogram]
  exact h

/-! ### The profiles against unbounded integers -/

theorem parseIn_of_error {p : Profile} {image : List UInt8} {e : ElfError}
    (h : parseHeader image = .error e) : parseIn p image = some (parseExact image) := by
  unfold parseIn parseExact
  rw [parseHeaderIn_eq p image, h]
  rfl

/-- Both profiles compute the same unless the first header ends above the address space. -/
theorem parseIn_eq {p : Profile} {image : List UInt8} (hlen : image.length < 2 ^ 63) {h : Header}
    (hok : parseHeader image = .ok h) (hfit : h.phoff + 56 < Word.modulus) :
    parseIn p image = some (parseExact image) := by
  obtain ⟨-, -, -, hphentsize, -⟩ := parseHeader_eq_ok.1 hok
  unfold parseIn parseExact
  rw [parseHeaderIn_eq p image, hok]
  show findLoadIn p image h.phoff h.phentsize 0 h.phnum >>= _ = some (scan _ _ _ _ >>= _)
  rw [hphentsize]
  refine bind_eq (findLoadIn_eq p hlen h.phnum ?_) fun found => ?_
  · rw [Nat.zero_mul]
    exact hfit
  · cases found <;> rfl

/-- The sum that is not checked: `dev` panics. -/
theorem findLoadIn_dev (image : List UInt8) {phoff : Nat} (n : Nat)
    (hfit : Word.modulus ≤ phoff + 56) :
    findLoadIn .dev image phoff PROGRAM_HEADER_SIZE 0 (n + 1) = none := by
  have hadd : Word.add phoff PROGRAM_HEADER_SIZE = none := if_neg (Nat.not_lt.2 hfit)
  unfold findLoadIn
  rw [Profile.mul_of_lt _ (by decide), liftM_bind, Nat.zero_mul]
  show ((liftM (Word.add phoff 0) : Parse Nat) >>= _) = none
  by_cases hlt : phoff + 0 < Word.modulus
  · have hzero : Word.add phoff 0 = some phoff := if_pos hlt
    rw [hzero, liftM_bind]
    show ((liftM (Word.add phoff PROGRAM_HEADER_SIZE) : Parse Nat) >>= _) = none
    rw [hadd]
    rfl
  · have hnone : Word.add phoff 0 = none := if_neg hlt
    rw [hnone]
    rfl

/-- `release` wraps, and no slice starts behind the file. -/
theorem findLoadIn_release {image : List UInt8} {phoff : Nat} (n : Nat)
    (hphoff : phoff < Word.modulus) (hbehind : image.length < phoff) :
    findLoadIn .release image phoff PROGRAM_HEADER_SIZE 0 (n + 1) = some (.error .Truncated) := by
  have hread : readIn .release image phoff 4 = some (.error .Truncated) := by
    have hrange : ∀ stop, getRange image phoff stop = none := fun stop => if_neg (by omega)
    unfold readIn
    show (match getRange image phoff ((phoff + 4) % Word.modulus) with | none => _ | some _ => _) = _
    rw [hrange]
    rfl
  have hheader : readProgramHeaderIn .release image phoff = some (.error .Truncated) := by
    unfold readProgramHeaderIn readU32In
    rw [hread]
    rfl
  unfold findLoadIn
  rw [Profile.mul_of_lt _ (by decide), liftM_bind, Nat.zero_mul,
    Profile.add_of_lt _ (by omega), liftM_bind, Nat.add_zero]
  show (if (phoff + PROGRAM_HEADER_SIZE) % Word.modulus > image.length then _ else _) = _
  split
  · rfl
  · rw [hheader]
    rfl

theorem phnum_succ {image : List UInt8} {h : Header} (hok : parseHeader image = .ok h) :
    ∃ n, h.phnum = n + 1 := by
  obtain ⟨ho, -, -, -, hphnum⟩ := parseHeader_eq_ok.1 hok
  have := ho.phnum
  exact ⟨h.phnum - 1, by omega⟩

theorem parseIn_dev_overflow {image : List UInt8} {h : Header} (hok : parseHeader image = .ok h)
    (hfit : Word.modulus ≤ h.phoff + 56) : parseIn .dev image = none := by
  obtain ⟨-, -, -, hphentsize, -⟩ := parseHeader_eq_ok.1 hok
  obtain ⟨n, hn⟩ := phnum_succ hok
  have hfind := findLoadIn_dev image n hfit
  unfold parseIn
  rw [parseHeaderIn_eq .dev image, hok]
  show findLoadIn .dev image h.phoff h.phentsize 0 h.phnum >>= _ = none
  rw [hphentsize, hn, hfind]
  rfl

/-- With wrapping sums the parser is the one over unbounded integers. -/
theorem parseIn_release {image : List UInt8} (hlen : image.length < 2 ^ 63) :
    parseIn .release image = some (parseExact image) := by
  have hmod : Word.modulus = 2 ^ 64 := rfl
  cases hok : parseHeader image with
  | error e => exact parseIn_of_error hok
  | ok h =>
    by_cases hfit : h.phoff + 56 < Word.modulus
    · exact parseIn_eq hlen hok hfit
    obtain ⟨-, -, hphoff, hphentsize, -⟩ := parseHeader_eq_ok.1 hok
    obtain ⟨n, hn⟩ := phnum_succ hok
    have hlt : h.phoff < Word.modulus := by
      rw [hphoff]
      exact field_lt image 32 8
    have hscan : scan image h.phoff 0 (n + 1) = .error .Truncated := by
      unfold scan
      exact if_pos (by omega)
    unfold parseIn parseExact
    rw [parseHeaderIn_eq .release image, hok]
    show findLoadIn .release image h.phoff h.phentsize 0 h.phnum >>= _ =
      some (scan image h.phoff 0 h.phnum >>= _)
    rw [hn, hscan, hphentsize, findLoadIn_release n hlt (by omega)]
    rfl

/-- `parse` is the parser of `dev`. -/
theorem parseIn_dev (image : List UInt8) : parseIn .dev image = parse image := by
  cases hok : parseHeader image with
  | error e =>
    rw [parseIn_of_error hok, parseExact, parse, hok]
    rfl
  | ok h =>
    unfold parse parseIn
    rw [parseHeaderIn_eq .dev image, hok]
    show (findLoadIn _ _ _ _ _ _ >>= _ : Parse ParsedElf) = Option.map _ (findLoad _ _ _ _ _)
    rw [findLoad_eq]
    cases findLoadIn .dev image h.phoff h.phentsize 0 h.phnum with
    | none => rfl
    | some answer =>
      cases answer with
      | error e => rfl
      | ok found => cases found <;> rfl

/-! ### What `dev` does -/

/-- The images on which the parser of `dev` answers: those refused before the loop, and those
whose first header ends inside the address space. -/
theorem parseIn_dev_returns (image : Slice) : (∃ answer, parseIn .dev image.1 = some answer) ↔
    (¬ ∃ id, HeaderOk image.1 id) ∨ field image.1 32 8 + 56 < 2 ^ 64 := by
  cases hok : parseHeader image.1 with
  | error e =>
    refine iff_of_true ⟨_, parseIn_of_error hok⟩ (.inl ?_)
    rintro ⟨id, ho⟩
    obtain ⟨program, -, hheader⟩ := ho.parseHeader
    rw [hok] at hheader
    cases hheader
  | ok h =>
    obtain ⟨ho, -, hphoff, -, -⟩ := parseHeader_eq_ok.1 hok
    by_cases hfit : h.phoff + 56 < Word.modulus
    · exact iff_of_true ⟨_, parseIn_eq image.2 hok hfit⟩ (.inr (by rw [← hphoff]; exact hfit))
    · rw [parseIn_dev_overflow hok (Nat.not_lt.1 hfit)]
      refine iff_of_false (fun ⟨_, hsome⟩ => nomatch hsome) ?_
      rintro (hno | hlt)
      · exact hno ⟨_, ho⟩
      · rw [← hphoff] at hlt
        exact hfit hlt

/-- The image of `ls` with the largest offset of its program headers is refused by no check, and
the sum of that offset and the size of a header panics. -/
theorem parseIn_dev_panics : ∃ image : Slice,
    image.1 = writeU64 (buildProgramImage .Ls) 32 (2 ^ 64 - 1) ∧ parseIn .dev image.1 = none := by
  refine ⟨⟨writeU64 (buildProgramImage .Ls) 32 (2 ^ 64 - 1), by decide +kernel⟩, rfl, ?_⟩
  exact Option.isNone_iff_eq_none.1 (by decide +kernel)

/-! ### The format -/

/-- The segment that the program header at `offset` describes. -/
def segment (image : List UInt8) (offset : Nat) : LoadSegment where
  offset := field image (offset + 8) 8
  virtAddr := field image (offset + 16) 8
  fileSize := field image (offset + 32) 8
  memSize := field image (offset + 40) 8
  flags := field image (offset + 4) 4

/-- The segment is in the file, and in its own memory. -/
def SegmentOk (image : List UInt8) (offset : Nat) : Prop :=
  (segment image offset).offset + (segment image offset).fileSize ≤ image.length ∧
    (segment image offset).fileSize ≤ (segment image offset).memSize

/-- The header `k` is the first of type `PT_LOAD`, the headers up to it are in the file, and its
segment is. -/
structure FirstLoad (image : List UInt8) (phoff k : Nat) : Prop where
  inFile : ∀ j ≤ k, phoff + 56 * j + 56 ≤ image.length
  before : ∀ j < k, field image (phoff + 56 * j) 4 ≠ 1
  load : field image (phoff + 56 * k) 4 = 1
  segment : SegmentOk image (phoff + 56 * k)

theorem readProgramHeader_eq {image : List UInt8} {offset : Nat}
    (h : offset + 56 ≤ image.length) : readProgramHeader image offset =
      if field image offset 4 ≠ PT_LOAD then .ok none
      else match Word.add (segment image offset).offset (segment image offset).fileSize with
        | none => .error .Truncated
        | some stop =>
          if stop > image.length then .error .Truncated
          else if (segment image offset).memSize < (segment image offset).fileSize then
            .error .Unsupported
          else .ok (some (segment image offset)) := by
  unfold readProgramHeader readU32 readU64
  rw [readLe_eq (by omega), readLe_eq (show offset + 4 + 4 ≤ _ by omega),
    readLe_eq (show offset + 8 + 8 ≤ _ by omega), readLe_eq (show offset + 16 + 8 ≤ _ by omega),
    readLe_eq (show offset + 32 + 8 ≤ _ by omega), readLe_eq (show offset + 40 + 8 ≤ _ by omega)]
  rfl

theorem readProgramHeader_none {image : List UInt8} {offset : Nat}
    (h : offset + 56 ≤ image.length) (htype : field image offset 4 ≠ 1) :
    readProgramHeader image offset = .ok none := by
  rw [readProgramHeader_eq h]
  exact if_pos htype

theorem readProgramHeader_some {image : List UInt8} {offset : Nat} (hlen : image.length < 2 ^ 63)
    (h : offset + 56 ≤ image.length) (htype : field image offset 4 = 1) {load : LoadSegment} :
    readProgramHeader image offset = .ok (some load) ↔
      SegmentOk image offset ∧ load = segment image offset := by
  have hmod : Word.modulus = 2 ^ 64 := rfl
  rw [readProgramHeader_eq h, htype, if_neg (show ¬ 1 ≠ PT_LOAD by decide), SegmentOk, Word.add]
  by_cases hword : (segment image offset).offset + (segment image offset).fileSize < Word.modulus
  · rw [if_pos hword]
    dsimp only
    split_ifs with hstop hmem
    · exact iff_of_false nofun fun hok => by omega
    · exact iff_of_false nofun fun hok => by omega
    · rw [Except.ok.injEq, Option.some.injEq, eq_comm, iff_and_self]
      intro _
      omega
  · rw [if_neg hword]
    exact iff_of_false nofun fun hok => by omega

theorem readProgramHeader_ne_none {image : List UInt8} {offset : Nat}
    (h : offset + 56 ≤ image.length) (htype : field image offset 4 = 1) :
    readProgramHeader image offset ≠ .ok none := by
  rw [readProgramHeader_eq h, htype, if_neg (show ¬ 1 ≠ PT_LOAD by decide)]
  split
  · nofun
  · split_ifs <;> nofun

theorem FirstLoad.zero {image : List UInt8} {phoff : Nat} : FirstLoad image phoff 0 ↔
    phoff + 56 ≤ image.length ∧ field image phoff 4 = 1 ∧ SegmentOk image phoff := by
  constructor
  · intro h
    exact ⟨h.inFile 0 (Nat.le_refl 0), h.load, h.segment⟩
  · rintro ⟨hfile, hload, hsegment⟩
    refine ⟨fun j hj => ?_, fun j hj => absurd hj (Nat.not_lt_zero j), hload, hsegment⟩
    rw [Nat.le_zero.1 hj]
    exact hfile

theorem FirstLoad.succ {image : List UInt8} {phoff k : Nat} : FirstLoad image phoff (k + 1) ↔
    phoff + 56 ≤ image.length ∧ field image phoff 4 ≠ 1 ∧ FirstLoad image (phoff + 56) k := by
  have hshift : ∀ j, phoff + 56 * (j + 1) = phoff + 56 + 56 * j := fun j => by omega
  constructor
  · rintro ⟨hfile, hbefore, hload, hsegment⟩
    refine ⟨hfile 0 (Nat.zero_le _), hbefore 0 (Nat.succ_pos k), fun j hj => ?_, fun j hj => ?_, ?_, ?_⟩
    · rw [← hshift]
      exact hfile (j + 1) (Nat.succ_le_succ hj)
    · rw [← hshift]
      exact hbefore (j + 1) (Nat.succ_lt_succ hj)
    · rw [← hshift]
      exact hload
    · rw [← hshift]
      exact hsegment
  · rintro ⟨hfirst, htype, hfile, hbefore, hload, hsegment⟩
    refine ⟨fun j hj => ?_, fun j hj => ?_, by rw [hshift]; exact hload,
      by rw [hshift]; exact hsegment⟩
    · cases j with
      | zero => exact hfirst
      | succ j =>
        rw [hshift]
        exact hfile j (Nat.le_of_succ_le_succ hj)
    · cases j with
      | zero => exact htype
      | succ j =>
        rw [hshift]
        exact hbefore j (Nat.lt_of_succ_lt_succ hj)

theorem scan_eq_some {image : List UInt8} (hlen : image.length < 2 ^ 63) {phoff : Nat} (n : Nat)
    {index : Nat} {load : LoadSegment} : scan image phoff index n = .ok (some load) ↔
      ∃ k < n, FirstLoad image (phoff + 56 * index) k ∧
        load = segment image (phoff + 56 * index + 56 * k) := by
  induction n generalizing index with
  | zero => exact iff_of_false nofun (by rintro ⟨k, hk, -⟩; omega)
  | succ n ih =>
    have hoffset : phoff + index * PROGRAM_HEADER_SIZE = phoff + 56 * index := by
      rw [Nat.mul_comm]
      rfl
    have hsize : PROGRAM_HEADER_SIZE = 56 := rfl
    have hnext : phoff + 56 * (index + 1) = phoff + 56 * index + 56 := by omega
    unfold scan
    dsimp only
    rw [hoffset, hsize]
    split
    case isTrue hbehind =>
      refine iff_of_false nofun ?_
      rintro ⟨k, -, hfirst, -⟩
      have := hfirst.inFile 0 (Nat.zero_le k)
      omega
    case isFalse hfile =>
      by_cases htype : field image (phoff + 56 * index) 4 = 1
      · have hload : (readProgramHeader image (phoff + 56 * index) >>= fun
              | none => scan image phoff (index + 1) n
              | some load => pure (some load)) = .ok (some load) ↔
            readProgramHeader image (phoff + 56 * index) = .ok (some load) := by
          cases hread : readProgramHeader image (phoff + 56 * index) with
          | error e => exact iff_of_false nofun nofun
          | ok found =>
            cases found with
            | some load' => exact Iff.rfl
            | none => exact absurd hread (readProgramHeader_ne_none (by omega) htype)
        refine hload.trans ((readProgramHeader_some hlen (by omega) htype).trans ?_)
        constructor
        · rintro ⟨hsegment, rfl⟩
          exact ⟨0, Nat.succ_pos n, FirstLoad.zero.2 ⟨by omega, htype, hsegment⟩, rfl⟩
        · rintro ⟨k, -, hfirst, rfl⟩
          cases k with
          | zero => exact ⟨(FirstLoad.zero.1 hfirst).2.2, rfl⟩
          | succ k => exact absurd htype (FirstLoad.succ.1 hfirst).2.1
      · rw [readProgramHeader_none (by omega) htype]
        show scan image phoff (index + 1) n = _ ↔ _
        rw [ih, hnext]
        constructor
        · rintro ⟨k, hk, hfirst, rfl⟩
          refine ⟨k + 1, Nat.succ_lt_succ hk, FirstLoad.succ.2 ⟨by omega, htype, hfirst⟩, ?_⟩
          congr 1
          omega
        · rintro ⟨k, hk, hfirst, rfl⟩
          cases k with
          | zero => exact absurd (FirstLoad.zero.1 hfirst).2.1 htype
          | succ k =>
            refine ⟨k, Nat.lt_of_succ_lt_succ hk, (FirstLoad.succ.1 hfirst).2.2, ?_⟩
            congr 1
            omega

/-- The parser of `release` accepts the images of the format, and answers with their fields: the
entry, its program, and the fields of the first header of type `PT_LOAD`. -/
theorem parseIn_release_accepts (image : Slice) (r : ParsedElf) :
    parseIn .release image.1 = some (.ok r) ↔ ∃ id k, HeaderOk image.1 id ∧
      k < field image.1 56 2 ∧ FirstLoad image.1 (field image.1 32 8) k ∧
      r.entry = field image.1 24 8 ∧ r.program.toNat = id ∧
      r.load = segment image.1 (field image.1 32 8 + 56 * k) := by
  rw [parseIn_release image.2]
  show some (parseExact image.1) = some (.ok r) ↔ _
  rw [Option.some.injEq, parseExact]
  constructor
  · intro hparse
    cases hok : parseHeader image.1 with
    | error e =>
      rw [hok] at hparse
      cases hparse
    | ok h =>
      obtain ⟨ho, hentry, hphoff, -, hphnum⟩ := parseHeader_eq_ok.1 hok
      rw [hok] at hparse
      cases hscan : scan image.1 h.phoff 0 h.phnum with
      | error e => simp [hscan, bind, Except.bind] at hparse
      | ok found =>
        cases found with
        | none => simp [hscan, bind, Except.bind] at hparse
        | some load =>
          simp only [bind, Except.bind, hscan, pure, Except.pure, Except.ok.injEq] at hparse
          subst hparse
          obtain ⟨k, hk, hfirst, hload⟩ := (scan_eq_some image.2 _).1 hscan
          rw [hphoff] at hfirst hload
          rw [hphnum] at hk
          exact ⟨_, k, ho, hk, hfirst, hentry, rfl, hload⟩
  · rintro ⟨id, k, ho, hk, hfirst, hentry, hid, hload⟩
    obtain ⟨program, hprogram, hok⟩ := ho.parseHeader
    have hscan : scan image.1 (field image.1 32 8) 0 (field image.1 56 2) = .ok (some r.load) :=
      (scan_eq_some image.2 _).2 ⟨k, hk, hfirst, hload⟩
    have hsame : program = r.program :=
      Option.some.inj ((find_toNat.2 hprogram).symm.trans (find_toNat.2 hid))
    rw [hok]
    simp only [bind, Except.bind, hscan, pure, Except.pure, hsame, ← hentry]

end Elf

end Zeronix
