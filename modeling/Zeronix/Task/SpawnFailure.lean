import Zeronix.Task.UserMemory

/-!
# Programs that cannot be loaded

What is left of a `spawn_elf` that fails.  An image that is refused leaves everything as it was.
With an image that is accepted the page table of the process comes first, and then its blocks.
When there is no memory for one of these, all that was taken before stays taken: no function of
the kernel gives pages back to the allocator.

`spawnElf_error` says what is kept and what is lost.
-/

namespace Zeronix

open Radix BuddyAllocator Session Mapper Page

/-! ### The tables in use -/

namespace Mapper

variable {k u virt : Nat} {R : List Nat} {data live new : List (Nat × Nat)} {b : BuddyAllocator}
variable {pm pm' : PhysMem}

theorem Grew.same_other {user : Bool} (hu : u ∉ R) (hlow : ¬ High virt)
    (hg : Grew (kernelSpace k (u :: R)) b u (indices virt) user pm live new pm') :
    (kernelSpace k R).scheme.Same (kernelSpace k R).root (entry pm.mem) (entry pm'.mem) := by
  rintro t j ⟨r, p, hr, hp, ht⟩ hj
  refine hg.along.kept (List.mem_cons_of_mem _ hr) hp ht hj fun hon => ?_
  exact hu (eq_of_on_low hlow hon ▸ hr)

theorem Spaces.mapAll_same (hu : u ∉ R) (huk : u ≠ k) (calls : List Call)
    (hlow : ∀ c ∈ calls, ¬ High c.virt) : ∀ {pm live}, Spaces k (u :: R) data b live pm →
    Mapper.mapAll pm u calls = some pm' →
    (kernelSpace k R).scheme.Same (kernelSpace k R).root (entry pm.mem) (entry pm'.mem) := by
  induction calls with
  | nil =>
    intro pm live h he
    obtain rfl := Option.some.inj he
    exact fun _ _ _ _ => rfl
  | cons c calls ih =>
    intro pm live h he
    obtain ⟨pm₁, hmap, he⟩ := Option.bind_eq_some_iff.mp he
    obtain ⟨new, _, h₁, hg, _⟩ := h.map List.mem_cons_self (Or.inl huk) hmap
    have hfirst := Grew.same_other hu (hlow c List.mem_cons_self) hg
    exact hfirst.trans (ih (fun c hc => hlow c (List.mem_cons_of_mem _ hc)) h₁ he)

end Mapper

namespace System

variable {s₀ s s' : System} {image : List UInt8} {e : SpawnError}

theorem newPageTable_same {R : List Nat} {data live : List (Nat × Nat)} {b : BuddyAllocator} {u : Nat}
    {pm' : PhysMem} (h : Spaces s.kernelPml4 R data b live s.pm)
    (he : s.newPageTable = some (u, pm')) : (kernelSpace s.kernelPml4 R).scheme.Same
      (kernelSpace s.kernelPml4 R).root (entry s.pm.mem) (entry pm'.mem) := by
  obtain ⟨pm₁, hcreate, hboot⟩ := newPageTable_cases he
  obtain ⟨hfresh, h₁, _⟩ := h.create hcreate
  have hne : u ≠ s.kernelPml4 := by
    rintro rfl
    exact hfresh h.kernel
  exact (h.created hcreate).same.trans (Spaces.mapAll_same hfresh hne bootCalls bootCalls_low h₁ hboot)

/-! ### What a failure keeps -/

def FreePage (s : System) (x : Nat) : Prop := (s.pm.buddy.info x).isFree = true

/-- Every entry of every page table in use is as before. -/
def TablesKept (s s' : System) : Prop :=
  ∀ t, IsTable s t → ∀ j < TABLE_ENTRIES, entry s'.pm.mem t j = entry s.pm.mem t j

theorem accepts_of_noMemory (h : s.spawnElf image = some (.error .NoMemory, s')) :
    ∃ parsed, Accepts image parsed := by
  simp only [spawnElf, Option.bind_eq_bind, Option.bind_eq_some_iff] at h
  obtain ⟨s₁, _, parsed?, hparse, h⟩ := h
  cases parsed? with
  | error e => simp at h
  | ok parsed =>
    simp only [spawnParsed] at h
    split at h
    · simp at h
    · rename_i hsize
      exact ⟨parsed, hparse, by omega, by omega⟩

theorem Sound.leak_tables {b : BuddyAllocator} {live : List (Nat × Nat)} {u : Nat} {pm₁ pm₂ : PhysMem}
    (h : Sound b s live) (hpt : s.newPageTable = some (u, pm₁))
    (hblk : allocBlocks pm₁ = some (none, pm₂)) {t : Nat} (ht : IsTable s t) {j : Nat}
    (hj : j < TABLE_ENTRIES) : entry pm₂.mem t j = entry s.pm.mem t j := by
  obtain ⟨_, _, _, h₁, _⟩ := newPageTable_spec h.spaces hpt
  rw [(allocBlocks_spec h₁ hblk).1]
  exact newPageTable_same h.spaces hpt ht hj

/-- Without memory some pages are lost. -/
theorem Sound.spawnElf_lost {b : BuddyAllocator} {live : List (Nat × Nat)} (h : Sound b s live)
    (hb : b.metadata.length ≤ MAX_SUPPORTED_PAGES)
    (he : s.spawnElf image = some (.error .NoMemory, s')) : ∃ x, FreePage s x ∧ ¬ FreePage s' x := by
  obtain ⟨parsed, hacc⟩ := accepts_of_noMemory he
  obtain ⟨s₁, hinit, hcases⟩ := spawnElf_cases he
  obtain ⟨h₁, _⟩ := h.init hinit
  rcases hcases with ⟨_, _, hbad⟩ |
    ⟨_, _, u, pm₁, _, pm₂, _, _, _, _, hpt, hblk, ⟨rfl, _, rfl⟩ | ⟨_, _, _, hok, _⟩⟩
  · have hfile := hacc.fileSize
    have hmem := hacc.memSize
    rcases hbad parsed hacc.parse with hlt | hlt <;> omega
  · obtain ⟨⟨new, hne, h₂⟩, _⟩ := h₁.leak hb hpt hblk
    have hledger := h₁.spaces.tables.ledger
    rw [(init_same hinit).1] at hledger
    exact hledger.exists_lost h₂.spaces.tables.ledger hne
  · simp at hok

/-- **A `spawn_elf` that fails** leaves the queue and every page table in use as they were, and
frees no page.  When the image was refused and a process runs, so that `init` has nothing to put on
the heap, the free pages are the same as well; without memory some that were free are not any
more. -/
theorem spawnElf_error {metadata : List PageInfo} {memMap : List MemoryArea}
    {reserved : List (Nat × Nat)} {mem : Memory} {l : BootLayout} {ring0StackTop : Nat}
    (hlen : metadata.length ≤ MAX_SUPPORTED_PAGES) (hareas : DisjointAreas memMap)
    (hboot : boot metadata memMap reserved mem l ring0StackTop = some s₀) (hrun : LowSteps s₀ s)
    (he : s.spawnElf image = some (.error e, s')) :
    s'.readyQueue = s.readyQueue ∧ TablesKept s s' ∧ (∀ x, FreePage s' x → FreePage s x) ∧
      (e ≠ .NoMemory → s.current.isSome = true → ∀ x, FreePage s x → FreePage s' x) ∧
      (e = .NoMemory → ∃ x, FreePage s x ∧ ¬ FreePage s' x) := by
  obtain ⟨b, live, h, hb⟩ := sound_of_run hlen hareas hboot (steps_of_low hrun)
  obtain ⟨s₁, hinit, hcases⟩ := spawnElf_cases he
  obtain ⟨h₁, hroots, _⟩ := h.init hinit
  obtain ⟨hpm, hk, _⟩ := init_same hinit
  have hqueue : s₁.readyQueue = s.readyQueue := by
    obtain ⟨more, hs₁, _⟩ := init_spec hinit
    rw [hs₁]
  rcases hcases with ⟨rfl, _, hbad⟩ | ⟨parsed, stackTop, u, pm₁, blocks, pm₂, _, _, _, _, hpt, hblk, hcases⟩
  · have hno : e ≠ .NoMemory := by
      rintro rfl
      obtain ⟨parsed, ha⟩ := accepts_of_noMemory he
      have hfile := ha.fileSize
      have hmem := ha.memSize
      rcases hbad parsed ha.parse with hlt | hlt <;> omega
    have hsame : ∀ x, FreePage s' x ↔ FreePage s x := fun x => by rw [FreePage, FreePage, hpm]
    exact ⟨hqueue, fun t _ j _ => by rw [hpm], fun x => (hsame x).mp, fun _ _ x => (hsame x).mpr,
      fun heq => absurd heq hno⟩
  · rcases hcases with ⟨rfl, herr, rfl⟩ | ⟨_, _, _, hok, _⟩
    · obtain rfl := Except.error.inj herr
      obtain ⟨⟨new, _, h₂⟩, _⟩ := h₁.leak hb hpt hblk
      have htables : ∀ {t}, IsTable s t → IsTable s₁ t := by
        intro t ht
        rw [IsTable, hk, hroots, hpm]
        exact ht
      have hledger := h₁.spaces.tables.ledger
      have hledger' := h₂.spaces.tables.ledger
      rw [hpm] at hledger
      refine ⟨hqueue, fun t ht j hj => ?_, fun x hx => ?_, fun hno => absurd rfl hno,
        fun _ => h.spawnElf_lost hb he⟩
      · rw [← hpm]
        exact h₁.leak_tables hpt hblk (htables ht) hj
      · exact (((hledger.taken hledger').2 x).mp hx).1
    · simp at hok

/-! ### A machine without room -/

/-- Pieces of six pages below 1 MiB, none of which has room for a kernel stack, the ranges that
boot reserves, and 4 MiB for the heap. -/
def fragmentedMap : List MemoryArea :=
  ((List.range 18).map fun j =>
    ⟨.ofNat ((8 * j + 1) * PAGE_SIZE), .ofNat ((8 * j + 7) * PAGE_SIZE), 1⟩) ++
  [⟨0x100000, 0x301000, 1⟩, ⟨0x400000, 0x408000, 1⟩, ⟨0x800000, 0xC00000, 1⟩]

def fragmentedBoot : Option System :=
  boot (List.replicate 3072 default) fragmentedMap kernelLayout.reserved
    { bytes := fun _ => 0, stores := [] } kernelLayout 0xFFFF800000300000

theorem fragmented_disjoint : DisjointAreas fragmentedMap := by
  have hgap : fragmentedMap.Pairwise fun a a' =>
      a.endAddress.toNat ≤ a'.startAddress.toNat := by decide +kernel
  refine (hgap.filter _).imp fun {a a'} h x hx => ?_
  omega

theorem fragmented_length : (List.replicate 3072 (default : PageInfo)).length =
    kernelPages fragmentedMap := by
  rw [List.length_replicate]
  decide +kernel

theorem fragmented_turns : turns none (kernelCalls fragmentedMap kernelLayout) ≤ 20 := by
  decide +kernel

/-- The pages of the pieces. -/
def fragments : Finset Nat := (Finset.range 144).filter fun x => x % 8 ≠ 0 ∧ x % 8 ≠ 7

theorem fragments_usable {x : Nat} (hx : x ∈ fragments) : Usable fragmentedMap kernelLayout x := by
  obtain ⟨hlt, h₀, h₇⟩ := Finset.mem_filter.mp hx
  have hlt := Finset.mem_range.mp hlt
  refine ⟨by rw [← fragmented_length, List.length_replicate]; omega, ⟨_, List.mem_append_left _
    (List.mem_map.mpr ⟨x / 8, List.mem_range.mpr (by omega), rfl⟩), rfl, ?_⟩,
    clear_of_apart fun r hr => Or.inr ?_⟩
  · unfold MemoryArea.HasPage PAGE_SIZE
    simp only [UInt64.toNat_ofNat']
    omega
  · have hstart : ∀ r ∈ kernelLayout.reserved, 0x100000 ≤ r.1 := by decide
    have hle := hstart r hr
    unfold PAGE_SIZE
    omega

theorem fragmented_chunk {x : Nat} (hge : 0x800 ≤ x) (hlt : x < 0xC00) :
    Usable fragmentedMap kernelLayout x := by
  refine ⟨by rw [← fragmented_length, List.length_replicate]; exact hlt,
    ⟨⟨0x800000, 0xC00000, 1⟩, List.mem_append_right _ (by simp), rfl, ?_⟩,
    clear_of_apart fun r hr => Or.inl ?_⟩
  · have hstart : (0x800000 : UInt64).toNat = 0x800000 := rfl
    have hend : (0xC00000 : UInt64).toNat = 0xC00000 := rfl
    unfold MemoryArea.HasPage PAGE_SIZE
    simp only [hstart, hend]
    omega
  · have hend : ∀ r ∈ kernelLayout.reserved, r.2 ≤ 0x800000 := by decide
    have hle := hend r hr
    unfold PAGE_SIZE
    omega

theorem fragmented_cases {x : Nat} (h : Usable fragmentedMap kernelLayout x) :
    (x % 8 ≠ 0 ∧ x % 8 ≠ 7) ∨ (0x800 ≤ x ∧ x < 0xC00) := by
  obtain ⟨_, ⟨a, ha, _, hpage⟩, hclear⟩ := h
  have hin : ∀ r ∈ kernelLayout.reserved, ¬ (r.1 ≤ x * PAGE_SIZE ∧ x * PAGE_SIZE < r.2) :=
    fun r hr => hclear r hr _ (Nat.le_refl _) (Nat.mul_lt_mul_of_pos_right x.lt_succ_self (by decide))
  have hkernel := hin (0x100000, 0x300000) (by decide)
  have hmbi := hin (0x300000, 0x301000) (by decide)
  have hboot := hin (BOOTDATA_START, BOOTDATA_END) (by decide)
  have hend : BOOTDATA_END = 0x407026 := by decide
  have hstart : BOOTDATA_START = 0x400000 := rfl
  unfold MemoryArea.HasPage at hpage
  rcases List.mem_append.mp ha with ha | ha
  · obtain ⟨j, hj, rfl⟩ := List.mem_map.mp ha
    have hj := List.mem_range.mp hj
    unfold PAGE_SIZE at *
    simp only [UInt64.toNat_ofNat'] at hpage
    omega
  · simp only [List.mem_cons, List.not_mem_nil, or_false] at ha
    unfold PAGE_SIZE at *
    rcases ha with rfl | rfl | rfl
    · simp only [show (0x100000 : UInt64).toNat = 0x100000 from rfl,
        show (0x301000 : UInt64).toNat = 0x301000 from rfl] at hpage
      omega
    · simp only [show (0x400000 : UInt64).toNat = 0x400000 from rfl,
        show (0x408000 : UInt64).toNat = 0x408000 from rfl] at hpage
      omega
    · simp only [show (0x800000 : UInt64).toNat = 0x800000 from rfl,
        show (0xC00000 : UInt64).toNat = 0xC00000 from rfl] at hpage
      omega

/-- **Frames without a kernel stack**: after the first steps there are frames for page tables, and
no run of four free pages. -/
theorem fragmented_ready : ∃ s₀ s b live, fragmentedBoot = some s₀ ∧ Ready b live s₀ s 0 43 ∧
    ∀ q, ¬ FreeRun s.pm.buddy KERNEL_STACK_ORDER q := by
  have hcard : 40 + 3 * turns none (kernelCalls fragmentedMap kernelLayout) + 3 + 1 ≤
      fragments.card := by
    have hturns := fragmented_turns
    have hcard : fragments.card = 108 := by decide +kernel
    omega
  have hzero : ¬ Usable fragmentedMap kernelLayout 0 := fun h => by
    have hcases := fragmented_cases h
    omega
  obtain ⟨b, live, s₀, hboot, h⟩ := boot_room 0 40 { bytes := fun _ => 0, stores := [] }
    0xFFFF800000300000 fragmented_length (by decide)
    (separatedAreas_of_gaps (by decide +kernel)) fragmented_disjoint (by decide +kernel)
    (by decide +kernel) kernelLayout_linked (by decide) (by decide) hzero hcard fun q hq => by
      have hlt := Finset.mem_range.mp (Finset.mem_filter.mp hq).1
      refine ⟨one_dvd q, ?_, fun x hge hlt => ?_⟩
      · unfold PAGE_SIZE EARLY_PAGE_TABLE_LIMIT
        omega
      · obtain rfl : x = q := by omega
        exact fragments_usable hq
  have hpages : 2 ^ CHUNK_ORDER = 0x400 := by decide
  obtain ⟨live', s, hready⟩ := h.exists_ready ⟨0x800, by decide, fun x hge hlt =>
    h.above x (by rw [limit_pages]; exact Nat.mul_le_mul_right _ hge)
      (fragmented_chunk (by omega) (by omega))⟩
  refine ⟨s₀, s, b, live', hboot, hready, ?_⟩
  have hsize : 2 ^ KERNEL_STACK_ORDER = 4 := by decide
  rintro q ⟨hd, hrun⟩
  obtain ⟨chunk, hchunk, hfree⟩ := hready.free
  -- the chunk is the only 4 MiB that there are
  have hlast := fragmented_cases (h.usable _ (hchunk.2 (chunk + 0x3FF) (by omega) (by omega)))
  have habove := h.chunk_above hchunk
  have hdvd := hchunk.1
  rw [hpages] at hdvd hfree
  rw [hsize] at hd hrun
  have hpage : ∀ x, q ≤ x → x < q + 4 → x % 8 ≠ 0 ∧ x % 8 ≠ 7 := by
    intro x hge hlt
    obtain ⟨hx, hoff⟩ := hfree x (hrun x hge hlt)
    have hcases := fragmented_cases (h.usable x hx)
    omega
  have hfirst := hpage q (by omega) (by omega)
  have hfourth := hpage (q + 3) (by omega) (by omega)
  omega

/-- There `spawn_elf` has no memory for `echo`. -/
theorem fragmented_echo : ∃ s₀ s b live s', fragmentedBoot = some s₀ ∧ Ready b live s₀ s 0 43 ∧
    s.spawnElf (Elf.buildProgramImage .Echo) = some (.error .NoMemory, s') := by
  obtain ⟨s₀, s, b, live, hboot, h, hnone⟩ := fragmented_ready
  obtain ⟨s', he⟩ := spawnElf_noMemory h.sound h.length h.kernelPml4 (by decide)
    (h.room.mono (by decide)) hnone (accepts_buildProgramImage .Echo)
  exact ⟨s₀, s, b, live, s', hboot, h, he⟩

/-- The page of the new page table stays taken. -/
theorem spawnElf_error_leaks : ∃ s₀ s s' e, fragmentedBoot = some s₀ ∧ LowSteps s₀ s ∧
    s.chunks ≠ [] ∧ s.current.isSome = true ∧
    s.spawnElf (Elf.buildProgramImage .Echo) = some (.error e, s') ∧
    ¬ ((∀ x, FreePage s' x ↔ FreePage s x) ∧ s'.readyQueue = s.readyQueue ∧ TablesKept s s') := by
  obtain ⟨s₀, s, b, live, s', hboot, h, he⟩ := fragmented_echo
  obtain ⟨x, hx, hlost⟩ := h.sound.spawnElf_lost h.length he
  exact ⟨s₀, s, s', _, hboot, h.run, h.heap, h.isSome, he, fun hk => hlost ((hk.1 x).mpr hx)⟩

/-- The queue and the tables are as before there. -/
theorem spawnElf_error_echo : ∃ s₀ s s', fragmentedBoot = some s₀ ∧ LowSteps s₀ s ∧
    s.chunks ≠ [] ∧ s.spawnElf (Elf.buildProgramImage .Echo) = some (.error .NoMemory, s') ∧
    s'.readyQueue = s.readyQueue ∧ TablesKept s s' ∧ ∃ x, FreePage s x ∧ ¬ FreePage s' x := by
  obtain ⟨s₀, s, b, live, s', hboot, h, he⟩ := fragmented_echo
  obtain ⟨hqueue, htables, _, _, hlost⟩ :=
    spawnElf_error machine_max fragmented_disjoint hboot h.run he
  exact ⟨s₀, s, s', hboot, h.run, h.heap, he, hqueue, htables, hlost rfl⟩

end System

end Zeronix
