import Zeronix.Lib.Memory

/-!
# Page tables with large pages

The walk of an x86-64 CPU through four levels of tables in memory.  An entry of the second or the
third level may be a page itself, of 2 MiB or of 1 GiB.  A page may be written, or used by ring 3,
when every entry on the way says so, and executed when none forbids it.

`translate` is about all addresses of 64 bits.  Those that are not canonical have no page.
-/

namespace Paging

structure Rights where
  writable : Bool
  user : Bool
  exec : Bool
  deriving DecidableEq, Repr

/-- What an address is mapped to. -/
structure Mapping where
  phys : Nat
  rights : Rights
  deriving DecidableEq, Repr

def Rights.all : Rights := { writable := true, user := true, exec := true }

/-- What is left of the rights below an entry. -/
def Rights.below (r : Rights) (e : Nat) : Rights where
  writable := r.writable && e.testBit 1
  user := r.user && e.testBit 2
  exec := r.exec && !e.testBit 63

/-- The lowest bit of an address that selects an entry, `level` levels above the last. -/
def shift (level : Nat) : Nat := 12 + 9 * level

/-- The address of the entry for `v`. -/
def entryAt (table v level : Nat) : Nat := table + 8 * (v / 2 ^ shift level % 512)

/-- The table that an entry points at. -/
def tableOf (e : Nat) : Nat := e / 2 ^ 12 % 2 ^ 40 * 2 ^ 12

/-- Where `v` lies in the page that an entry is. -/
def inPage (e v level : Nat) : Nat :=
  e / 2 ^ shift level % 2 ^ (52 - shift level) * 2 ^ shift level + v % 2 ^ shift level

/-- The walk from a table of the given number of levels.  A page of 512 GiB does not exist. -/
def walk (m : Memory) (v : Nat) : Nat → Nat → Rights → Option Mapping
  | 0, _, _ => none
  | level + 1, table, r =>
    let e := m.load (entryAt table v level)
    if !e.testBit 0 then none
    else if level = 0 ∨ e.testBit 7 ∧ level ≤ 2 then
      some { phys := inPage e v level, rights := r.below e }
    else if e.testBit 7 then none
    else walk m v level (tableOf e) (r.below e)

def Canonical (v : Nat) : Prop := v < 2 ^ 47 ∨ 2 ^ 64 - 2 ^ 47 ≤ v ∧ v < 2 ^ 64

instance (v : Nat) : Decidable (Canonical v) := inferInstanceAs (Decidable (_ ∨ _))

/-- What the CPU finds for `v` under the root that `CR3` holds. -/
def translate (m : Memory) (cr3 v : Nat) : Option Mapping :=
  if Canonical v then walk m v 4 (tableOf cr3) .all else none

variable {m m' : Memory} {v level table e : Nat} {r : Rights}

@[simp] theorem entryAt_three (table v : Nat) :
    entryAt table v 3 = table + 8 * (v / 2 ^ 39 % 512) := rfl

@[simp] theorem entryAt_two (table v : Nat) :
    entryAt table v 2 = table + 8 * (v / 2 ^ 30 % 512) := rfl

@[simp] theorem entryAt_one (table v : Nat) :
    entryAt table v 1 = table + 8 * (v / 2 ^ 21 % 512) := rfl

theorem walk_absent (he : m.load (entryAt table v level) = e) (hp : e.testBit 0 = false) :
    walk m v (level + 1) table r = none := by
  rw [walk, he, hp]
  rfl

theorem walk_table (he : m.load (entryAt table v (level + 1)) = e) (hp : e.testBit 0 = true)
    (hs : e.testBit 7 = false) :
    walk m v (level + 1 + 1) table r = walk m v (level + 1) (tableOf e) (r.below e) := by
  rw [walk, he, hp, hs]
  simp

/-- A page, in the last table or where an entry of the two levels above it is large. -/
theorem walk_page (he : m.load (entryAt table v level) = e) (hp : e.testBit 0 = true)
    (hl : level = 0 ∨ e.testBit 7 = true ∧ level ≤ 2) :
    walk m v (level + 1) table r = some { phys := inPage e v level, rights := r.below e } := by
  rw [walk, he, hp]
  exact if_pos hl

/-- A large page of the second level keeps the address's low 21 bits. -/
theorem inPage_one (e v : Nat) : inPage e v 1 = e / 2 ^ 21 % 2 ^ 31 * 2 ^ 21 + v % 2 ^ 21 := rfl

end Paging
