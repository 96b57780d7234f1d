import Zeronix.Lib.Word

/-!
# Placing an allocation in a block

`src/alloc_layout.rs`: a block starts with a header; the user pointer is the first
multiple of the alignment behind the header and the back pointer, and the used part of
the block ends at the next multiple of the block alignment behind the user's bytes.
Every sum is checked: an overflow makes the placement fail.
-/

namespace Zeronix

/-- `core::alloc::Layout`: the alignment is a power of two, and the size rounded up to it
does not exceed `isize::MAX`. -/
structure Layout where
  size : Nat
  align : Nat
  align_pow : align = 2 ^ Nat.log2 align
  fits : size + align ≤ 2 ^ 63
  deriving DecidableEq

/-- `Layout::from_size_align`. -/
def Layout.fromSizeAlign (size align : Nat) : Option Layout :=
  if h : align = 2 ^ Nat.log2 align ∧ size + align ≤ 2 ^ 63 then
    some { size := size, align := align, align_pow := h.1, fits := h.2 }
  else none

structure AllocationGeometry where
  headerSize : Nat
  blockAlign : Nat
  backPtrSize : Nat

structure AllocationPlacement where
  userPtr : Nat
  usedSize : Nat
  deriving DecidableEq, Repr

namespace AllocLayout

/-- `none` when `expect("normalized layout must be valid")` panics. -/
def normalizeLayout (layout : Layout) (minAlign : Nat) : Option Layout :=
  Layout.fromSizeAlign (max layout.size 1) (max layout.align minAlign)

def alignUp (addr align : Nat) : Option Nat := do
  let mask ← Word.sub align 1
  let v ← Word.add addr mask
  return v &&& Word.not mask

def userPtrForBlock (blockStart : Nat) (layout : Layout) (geometry : AllocationGeometry) :
    Option Nat := do
  let afterHeader ← Word.add blockStart geometry.headerSize
  let afterBackPtr ← Word.add afterHeader geometry.backPtrSize
  alignUp afterBackPtr layout.align

def requiredBlockSize (blockStart : Nat) (layout : Layout) (geometry : AllocationGeometry) :
    Option Nat := do
  let userPtr ← userPtrForBlock blockStart layout geometry
  let allocationEnd ← Word.add userPtr layout.size
  let usedEnd ← alignUp allocationEnd geometry.blockAlign
  Word.sub usedEnd blockStart

def allocationForBlock (blockStart blockSize : Nat) (layout : Layout)
    (geometry : AllocationGeometry) : Option AllocationPlacement := do
  let userPtr ← userPtrForBlock blockStart layout geometry
  let allocationEnd ← Word.add userPtr layout.size
  let usedEnd ← alignUp allocationEnd geometry.blockAlign
  let usedSize ← Word.sub usedEnd blockStart
  if usedSize ≤ blockSize then some { userPtr := userPtr, usedSize := usedSize } else none

theorem alignUp_spec {addr k v : Nat} (hk : k < 64) (h : alignUp addr (2 ^ k) = some v) :
    addr ≤ v ∧ v < addr + 2 ^ k ∧ 2 ^ k ∣ v ∧ v < Word.modulus := by
  have hpos := Nat.two_pow_pos k
  simp only [alignUp, Option.bind_eq_bind, Option.bind_eq_some_iff, Word.sub_eq_some,
    Word.add_eq_some, Option.pure_def, Option.some.injEq] at h
  obtain ⟨mask, ⟨_, rfl⟩, s, ⟨hlt, rfl⟩, rfl⟩ := h
  rw [Word.and_not_two_pow hlt (by omega)]
  have h1 := Nat.div_add_mod (addr + (2 ^ k - 1)) (2 ^ k)
  have h2 := Nat.mod_lt (addr + (2 ^ k - 1)) hpos
  rw [Nat.mul_comm] at h1
  refine ⟨by omega, by omega, Nat.dvd_mul_left _ _, by omega⟩

theorem normalizeLayout_spec {asked layout : Layout} {k : Nat}
    (h : normalizeLayout asked (2 ^ k) = some layout) :
    layout.size = max asked.size 1 ∧ asked.align ∣ layout.align := by
  rw [normalizeLayout, Layout.fromSizeAlign] at h
  split at h
  · cases h
    refine ⟨rfl, ?_⟩
    simp only
    rw [asked.align_pow]
    rcases Nat.le_total (Nat.log2 asked.align) k with hle | hle
    · rw [max_eq_right (Nat.pow_le_pow_right (by omega) hle)]
      exact pow_dvd_pow 2 hle
    · rw [max_eq_left (Nat.pow_le_pow_right (by omega) hle)]
  · cases h

theorem normalizeLayout_isSome_iff (asked : Layout) (k : Nat) :
    (∃ layout, normalizeLayout asked (2 ^ k) = some layout) ↔
      max asked.size 1 + max asked.align (2 ^ k) ≤ 2 ^ 63 := by
  have halign : max asked.align (2 ^ k) = 2 ^ Nat.log2 (max asked.align (2 ^ k)) := by
    rw [asked.align_pow]
    rcases Nat.le_total (Nat.log2 asked.align) k with hle | hle
    · rw [max_eq_right (Nat.pow_le_pow_right (by omega) hle), Nat.log2_two_pow]
    · rw [max_eq_left (Nat.pow_le_pow_right (by omega) hle), Nat.log2_two_pow]
  rw [normalizeLayout, Layout.fromSizeAlign]
  constructor
  · rintro ⟨layout, h⟩
    split at h
    case isTrue hfits => exact hfits.2
    case isFalse => cases h
  · intro hfits
    exact ⟨_, dif_pos ⟨halign, hfits⟩⟩

/-- What a placement promises, for a block alignment of `2 ^ k`. -/
structure Placed (layout : Layout) (geometry : AllocationGeometry) (blockStart blockSize : Nat)
    (p : AllocationPlacement) : Prop where
  align : layout.align ∣ p.userPtr
  header : blockStart + geometry.headerSize + geometry.backPtrSize ≤ p.userPtr
  room : p.userPtr + layout.size ≤ blockStart + p.usedSize
  ends : geometry.blockAlign ∣ blockStart + p.usedSize
  used : p.usedSize ≤ blockSize
  lt : blockStart + p.usedSize < Word.modulus

theorem log2_align_lt (layout : Layout) : Nat.log2 layout.align < 64 := by
  have h := layout.fits
  rw [layout.align_pow] at h
  by_contra hge
  have : 2 ^ 64 ≤ 2 ^ Nat.log2 layout.align := Nat.pow_le_pow_right (by omega) (by omega)
  omega

theorem allocationForBlock_spec {layout : Layout} {geometry : AllocationGeometry} {k : Nat}
    (hk : k < 64) (hg : geometry.blockAlign = 2 ^ k) {blockStart blockSize : Nat}
    {p : AllocationPlacement} (h : allocationForBlock blockStart blockSize layout geometry = some p) :
    Placed layout geometry blockStart blockSize p := by
  simp only [allocationForBlock, userPtrForBlock, Option.bind_eq_bind, Option.bind_eq_some_iff,
    Word.sub_eq_some, Word.add_eq_some] at h
  obtain ⟨user, ⟨_, ⟨_, rfl⟩, _, ⟨_, rfl⟩, huser⟩, _, ⟨_, rfl⟩, stop, hstop, _, ⟨hle, rfl⟩, hif⟩ := h
  split at hif
  · rename_i hused
    cases hif
    rw [layout.align_pow] at huser
    rw [hg] at hstop
    obtain ⟨h1, _, h3, _⟩ := alignUp_spec (log2_align_lt layout) huser
    obtain ⟨h5, _, h7, h8⟩ := alignUp_spec hk hstop
    rw [← layout.align_pow] at h3
    refine ⟨h3, h1, by simp only; omega, ?_, hused, by simp only; omega⟩
    rw [hg]
    simp only
    rwa [Nat.add_sub_cancel' hle]
  · cases hif

/-! ### Blocks that fit -/

theorem alignUp_some {addr k : Nat} (h : addr + 2 ^ k ≤ Word.modulus) :
    ∃ v, alignUp addr (2 ^ k) = some v := by
  have hpos := Nat.two_pow_pos k
  have hsub : Word.sub (2 ^ k) 1 = some (2 ^ k - 1) := if_pos hpos
  have hadd : Word.add addr (2 ^ k - 1) = some (addr + (2 ^ k - 1)) := if_pos (by omega)
  exact ⟨_, by rw [alignUp, hsub, Option.bind_eq_bind, Option.bind_some, hadd]; rfl⟩

theorem alignUp_le_of_dvd {addr k v w : Nat} (hk : k < 64) (h : alignUp addr (2 ^ k) = some v)
    (hw : addr ≤ w) (hdvd : 2 ^ k ∣ w) : v ≤ w := by
  obtain ⟨_, hlt, hv, _⟩ := alignUp_spec hk h
  by_contra hgt
  have hle : w + 2 ^ k ≤ v := by
    obtain ⟨i, rfl⟩ := hdvd
    obtain ⟨j, rfl⟩ := hv
    have hij : i < j := Nat.lt_of_mul_lt_mul_left (Nat.lt_of_not_le hgt)
    calc 2 ^ k * i + 2 ^ k = 2 ^ k * (i + 1) := (Nat.mul_succ _ _).symm
      _ ≤ 2 ^ k * j := Nat.mul_le_mul_left _ hij
  omega

theorem alignUp_add {addr k v c : Nat} (hk : k < 64) (h : alignUp addr (2 ^ k) = some v)
    (hdvd : 2 ^ k ∣ c) (hlt : c + addr + 2 ^ k ≤ Word.modulus) :
    alignUp (c + addr) (2 ^ k) = some (c + v) := by
  obtain ⟨w, hw⟩ := alignUp_some hlt
  obtain ⟨h1, h2, h3, _⟩ := alignUp_spec hk h
  obtain ⟨h4, h5, h6, _⟩ := alignUp_spec hk hw
  have hle : w ≤ c + v := alignUp_le_of_dvd hk hw (by omega) ((Nat.dvd_add_right hdvd).mpr h3)
  have hge : v ≤ w - c :=
    alignUp_le_of_dvd hk h (by omega) ((Nat.dvd_sub_iff_left (by omega) hdvd).mpr h6)
  rw [hw]
  congr 1
  omega

section Fits

variable {layout : Layout} {geometry : AllocationGeometry} {k : Nat}

theorem alignUp_eq_some_iff (hk : k < 64) {addr u v : Nat}
    (hu : IsLeast {m | 2 ^ k ∣ m ∧ addr ≤ m} u) :
    alignUp addr (2 ^ k) = some v ↔ u < Word.modulus ∧ v = u := by
  obtain ⟨⟨hdvd, hle⟩, hleast⟩ := hu
  have hforward : ∀ v, alignUp addr (2 ^ k) = some v → v < Word.modulus ∧ v = u := by
    intro v hv
    obtain ⟨h1, _, h3, h4⟩ := alignUp_spec hk hv
    exact ⟨h4, Nat.le_antisymm (alignUp_le_of_dvd hk hv hle hdvd) (hleast ⟨h3, h1⟩)⟩
  constructor
  · intro hv
    obtain ⟨hlt, rfl⟩ := hforward v hv
    exact ⟨hlt, rfl⟩
  · rintro ⟨hlt, rfl⟩
    -- The modulus is a multiple as well, so there is a whole step between the two.
    have hmodulus : 2 ^ k ∣ Word.modulus := pow_dvd_pow 2 hk.le
    have hstep : 2 ^ k ≤ Word.modulus - v :=
      Nat.le_of_dvd (by omega) (Nat.dvd_sub hmodulus hdvd)
    obtain ⟨w, hw⟩ := alignUp_some (show addr + 2 ^ k ≤ Word.modulus by omega)
    rw [hw, (hforward w hw).2]

theorem exists_least_multiple (k addr : Nat) : ∃ u, IsLeast {m | 2 ^ k ∣ m ∧ addr ≤ m} u := by
  have hex : ∃ m, 2 ^ k ∣ m ∧ addr ≤ m :=
    ⟨2 ^ k * addr, Nat.dvd_mul_right _ _, Nat.le_mul_of_pos_left _ (Nat.two_pow_pos k)⟩
  exact ⟨Nat.find hex, Nat.find_spec hex, fun m hm => Nat.find_min' hex hm⟩

theorem allocationForBlock_eq_some_iff (hk : k < 64) (hg : geometry.blockAlign = 2 ^ k)
    {start size u e : Nat} {p : AllocationPlacement}
    (hu : IsLeast {m | layout.align ∣ m ∧ start + geometry.headerSize + geometry.backPtrSize ≤ m} u)
    (he : IsLeast {m | geometry.blockAlign ∣ m ∧ u + layout.size ≤ m} e) :
    allocationForBlock start size layout geometry = some p ↔
      e < Word.modulus ∧ e - start ≤ size ∧ p = { userPtr := u, usedSize := e - start } := by
  have hfirst := hu.1.2
  have hsecond := he.1.2
  rw [layout.align_pow] at hu
  rw [hg] at he
  have huser := fun v => alignUp_eq_some_iff (log2_align_lt layout) hu (v := v)
  have hstop := fun v => alignUp_eq_some_iff hk he (v := v)
  rw [← layout.align_pow] at huser
  simp only [allocationForBlock, userPtrForBlock, Option.bind_eq_bind, Option.bind_eq_some_iff,
    Word.sub_eq_some, Word.add_eq_some]
  constructor
  · rintro ⟨_, ⟨_, ⟨_, rfl⟩, _, ⟨_, rfl⟩, hv⟩, _, ⟨_, rfl⟩, _, hw, _, ⟨_, rfl⟩, hif⟩
    obtain ⟨_, rfl⟩ := (huser _).mp hv
    rw [hg] at hw
    obtain ⟨hlt, rfl⟩ := (hstop _).mp hw
    split at hif
    case isFalse => cases hif
    case isTrue hused =>
      cases hif
      exact ⟨hlt, hused, rfl⟩
  · rintro ⟨hlt, hused, rfl⟩
    refine ⟨u, ⟨_, ⟨by omega, rfl⟩, _, ⟨by omega, rfl⟩, (huser u).mpr ⟨by omega, rfl⟩⟩, _,
      ⟨by omega, rfl⟩, e, ?_, _, ⟨by omega, rfl⟩, if_pos hused⟩
    rw [hg]
    exact (hstop e).mpr ⟨hlt, rfl⟩

theorem exists_least_multiples (hg : geometry.blockAlign = 2 ^ k) (start : Nat) (layout : Layout) :
    ∃ u e,
      IsLeast {m | layout.align ∣ m ∧ start + geometry.headerSize + geometry.backPtrSize ≤ m} u ∧
      IsLeast {m | geometry.blockAlign ∣ m ∧ u + layout.size ≤ m} e := by
  obtain ⟨u, hu⟩ := exists_least_multiple (Nat.log2 layout.align)
    (start + geometry.headerSize + geometry.backPtrSize)
  obtain ⟨e, he⟩ := exists_least_multiple k (u + layout.size)
  rw [← layout.align_pow] at hu
  rw [← hg] at he
  exact ⟨u, e, hu, he⟩

theorem allocationForBlock_mono (hk : k < 64) (hg : geometry.blockAlign = 2 ^ k)
    {start size start' size' : Nat} (hstart : start' ≤ start)
    (hend : start + size ≤ start' + size') {p : AllocationPlacement}
    (h : allocationForBlock start size layout geometry = some p) :
    ∃ p', allocationForBlock start' size' layout geometry = some p' ∧
      start' + p'.usedSize ≤ start + p.usedSize := by
  obtain ⟨u, e, hu, he⟩ := exists_least_multiples hg start layout
  obtain ⟨u', e', hu', he'⟩ := exists_least_multiples hg start' layout
  obtain ⟨hlt, hused, rfl⟩ := (allocationForBlock_eq_some_iff hk hg hu he).mp h
  have huser : u' ≤ u := hu'.2 ⟨hu.1.1, le_trans (by omega) hu.1.2⟩
  have hstop : e' ≤ e := he'.2 ⟨he.1.1, le_trans (by omega) he.1.2⟩
  have h1 := hu.1.2
  have h2 := he.1.2
  have h3 := hu'.1.2
  have h4 := he'.1.2
  refine ⟨⟨u', e' - start'⟩, (allocationForBlock_eq_some_iff hk hg hu' he').mpr ⟨?_, ?_, rfl⟩, ?_⟩
  · exact lt_of_le_of_lt hstop hlt
  · omega
  · simp only
    omega

/-- **The placement is exact and minimal.**  No sum on the way overflows unless the placement ends
beyond the address space, and a larger block has its placement end no later. -/
theorem allocationForBlock_exact (hk : k < 64) (hg : geometry.blockAlign = 2 ^ k)
    (start size : Nat) (layout : Layout) :
    (∃ u e,
      IsLeast {m | layout.align ∣ m ∧ start + geometry.headerSize + geometry.backPtrSize ≤ m} u ∧
      IsLeast {m | geometry.blockAlign ∣ m ∧ u + layout.size ≤ m} e ∧
      ∀ p, allocationForBlock start size layout geometry = some p ↔
        e < 2 ^ 64 ∧ e - start ≤ size ∧ p = { userPtr := u, usedSize := e - start }) ∧
    ∀ start' size' p', start ≤ start' → start' + size' ≤ start + size →
      allocationForBlock start' size' layout geometry = some p' →
      ∃ p, allocationForBlock start size layout geometry = some p ∧
        start + p.usedSize ≤ start' + p'.usedSize := by
  obtain ⟨u, e, hu, he⟩ := exists_least_multiples hg start layout
  refine ⟨⟨u, e, hu, he, fun p => allocationForBlock_eq_some_iff hk hg hu he⟩, ?_⟩
  intro start' size' p' hstart hend hp'
  exact allocationForBlock_mono hk hg hstart hend hp'

/-- A block at the top of the address space, and one around it. -/
theorem allocationForBlock_exact_top : ∃ p,
    allocationForBlock (2 ^ 64 - 96) 88 { size := 32, align := 16, align_pow := rfl, fits := by decide }
      { headerSize := 24, blockAlign := 8, backPtrSize := 8 } = some p ∧
      2 ^ 64 - 96 + p.usedSize ≤ 2 ^ 64 - 88 + 72 :=
  (allocationForBlock_exact (k := 3) (by decide) rfl (2 ^ 64 - 96) 88 _).2 (2 ^ 64 - 88) 80
    { userPtr := 2 ^ 64 - 48, usedSize := 72 } (by decide) (by decide) (by decide +kernel)

/-! ### Sizes that are enough -/

theorem align_le_of_required (hk : k < 64) (hg : geometry.blockAlign = 2 ^ k) {n : Nat}
    (hn : requiredBlockSize 0 layout geometry = some n) (hpos : 0 < geometry.headerSize) :
    layout.align ≤ n := by
  have ha := log2_align_lt layout
  simp only [requiredBlockSize, userPtrForBlock, Option.bind_eq_bind, Option.bind_eq_some_iff,
    Word.sub_eq_some, Word.add_eq_some] at hn
  obtain ⟨user, ⟨_, ⟨_, rfl⟩, _, ⟨_, rfl⟩, huser⟩, _, ⟨_, rfl⟩, stop, hstop, _, hn⟩ := hn
  obtain rfl : n = stop := hn
  rw [layout.align_pow] at huser
  rw [hg] at hstop
  obtain ⟨h1, _, h3, _⟩ := alignUp_spec ha huser
  obtain ⟨h5, _, _, _⟩ := alignUp_spec hk hstop
  rw [← layout.align_pow] at h3
  have := Nat.le_of_dvd (by omega) h3
  omega

theorem allocationForBlock_of_required (hk : k < 64) (hg : geometry.blockAlign = 2 ^ k)
    {start size n : Nat} (hn : requiredBlockSize 0 layout geometry = some n) (hle : n ≤ size)
    (halign : layout.align ∣ start) (hblock : geometry.blockAlign ∣ start)
    (hpos : 0 < geometry.headerSize) (hsmall : geometry.blockAlign ≤ size)
    (hend : start + size + size ≤ Word.modulus) :
    ∃ p, allocationForBlock start size layout geometry = some p := by
  have ha := log2_align_lt layout
  have halignLe := align_le_of_required hk hg hn hpos
  simp only [requiredBlockSize, userPtrForBlock, Option.bind_eq_bind, Option.bind_eq_some_iff,
    Word.sub_eq_some, Word.add_eq_some] at hn
  obtain ⟨user, ⟨_, ⟨_, rfl⟩, _, ⟨_, rfl⟩, huser⟩, _, ⟨_, rfl⟩, stop, hstop, _, hn⟩ := hn
  obtain rfl : n = stop := hn
  rw [layout.align_pow] at huser halign halignLe
  rw [hg] at hstop hblock hsmall
  obtain ⟨h1, _, _, _⟩ := alignUp_spec ha huser
  obtain ⟨h5, _, _, _⟩ := alignUp_spec hk hstop
  have huser' := alignUp_add ha huser halign (by omega)
  have hstop' := alignUp_add hk hstop hblock (by omega)
  rw [← layout.align_pow] at huser'
  refine ⟨⟨start + user, start + n - start⟩, ?_⟩
  simp only [allocationForBlock, userPtrForBlock, Option.bind_eq_bind, Option.bind_eq_some_iff,
    Word.sub_eq_some, Word.add_eq_some]
  refine ⟨start + user, ⟨_, ⟨by omega, rfl⟩, _, ⟨by omega, rfl⟩, ?_⟩, _, ⟨by omega, rfl⟩,
    start + n, ?_, _, ⟨by omega, rfl⟩, if_pos (by omega)⟩
  · rw [Nat.zero_add, ← Nat.add_assoc] at huser'
    exact huser'
  · rw [hg, Nat.add_assoc]
    exact hstop'

end Fits

end AllocLayout

end Zeronix
