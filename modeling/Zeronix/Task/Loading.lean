import Zeronix.Mem.AddressSpaces
import Zeronix.Task.Runs

/-!
# Loading a process

What the parts of `spawn_user` and `spawn_elf` do to the address spaces: the new page table
(`newPageTable_spec`), the blocks of the process (`allocBlocks_spec`), and its program and stack
(`loadUser_spec`).  Each is a theorem about `Spaces`, with what the processor then finds in the
old tables and in the new one.
-/

namespace Zeronix

open Radix BuddyAllocator Session Mapper Page

variable {k u : Nat} {R : List Nat} {data live : List (Nat × Nat)} {b : BuddyAllocator}
variable {pm pm' : PhysMem} {s s' : System}

namespace System

/-! ### The new page table -/

/-- The pages of the boot data, mapped to themselves for the kernel. -/
def bootCalls : List Call := (pageSteps 0x400000 0x408000).map fun addr =>
  { virt := addr, phys := addr, flags := EntryFlags.PRESENT ||| EntryFlags.WRITABLE ||| EntryFlags.NX }

theorem mapBootdataIdentity_eq (h : mapBootdataIdentity pm u = some pm') :
    mapAll pm u bootCalls = some pm' := by
  have hstop : alignUp BOOTDATA_END PAGE_SIZE = some 0x408000 := by decide
  have hstart : alignDown BOOTDATA_START PAGE_SIZE = 0x400000 := by decide
  rw [mapBootdataIdentity, hstop, hstart] at h
  exact mapAll_of_foldlM (fun addr => { virt := addr, phys := addr, flags := _ })
    map_of_mapIntoPageTable _ h

theorem newPageTable_cases (h : s.newPageTable = some (u, pm')) :
    ∃ pm₁, createUserPageTable s.pm s.kernelPml4 = some (u, pm₁) ∧
      mapAll pm₁ u bootCalls = some pm' := by
  simp only [newPageTable, Option.bind_eq_bind, Option.bind_eq_some_iff] at h
  obtain ⟨⟨pagetable, pm₁⟩, hcreate, pm₂, hboot, h⟩ := h
  obtain ⟨rfl, rfl⟩ := Prod.mk.inj (Option.some.inj h)
  exact ⟨pm₁, hcreate, mapBootdataIdentity_eq hboot⟩

theorem bootCalls_low : ∀ c ∈ bootCalls, ¬ High c.virt := by
  decide +kernel

/-- **The page table of a new process**: a new root, with the kernel's upper half and the boot
data below. -/
theorem newPageTable_spec (h : Spaces s.kernelPml4 R data b live s.pm)
    (he : s.newPageTable = some (u, pm')) : ∃ new, new ≠ [] ∧ u ∉ R ∧
      Spaces s.kernelPml4 (u :: R) data b (new ++ live) pm' ∧
      (∀ r ∈ R, ∀ v, walk pm'.mem r v = walk s.pm.mem r v) ∧
      (∀ v, High v → walk pm'.mem u v = walk s.pm.mem s.kernelPml4 v) ∧
      ∀ v, ¬ High v → walk pm'.mem u v = (lastCall bootCalls v).map Call.translation := by
  obtain ⟨pm₁, hcreate, hboot⟩ := newPageTable_cases he
  obtain ⟨hfresh, h₁, hold, hhigh, hlow⟩ := h.create hcreate
  have hne : u ≠ s.kernelPml4 := by
    rintro rfl
    exact hfresh h.kernel
  obtain ⟨new, h₂, hshown, hwalk⟩ := h₁.mapAll_low List.mem_cons_self hne hboot
  have hwalk := hwalk bootCalls_low
  refine ⟨new ++ [(u, 0)], by simp, hfresh, by rw [List.append_assoc]; exact h₂, ?_, ?_, ?_⟩
  · intro r hr v
    rw [hwalk r (List.mem_cons_of_mem _ hr) v (Or.inl fun heq => hfresh (heq ▸ hr)), hold r hr v]
  · intro v hv
    rw [hwalk u List.mem_cons_self v (Or.inr hv), hhigh v hv, hold _ h.kernel]
  · intro v hv
    have hpriv : (kernelSpace s.kernelPml4 (u :: R)).shared (index v 39) = false :=
      decide_eq_false hv
    have hblank : walk pm₁.mem u v = none := by
      rw [walk_eq_ofLeaf h₁.tables h₁.covered List.mem_cons_self hpriv, hlow v hv]
      rfl
    rw [hshown v hv, hblank, Option.or_none]

/-! ### The blocks -/

theorem allocBlock_cases (h : Spaces k R data b live pm) {order : Nat} {addr : Option Nat}
    (he : allocBlock pm order = some (addr, pm')) :
    (addr = none ∧ pm' = pm) ∨ ∃ a, addr = some a ∧ pm'.mem = pm.mem ∧
      Spaces k R ((a, order) :: data) b ((a, order) :: live) pm' := by
  obtain ⟨⟨addr', a'⟩, halloc, heq⟩ := Option.map_eq_some_iff.mp he
  obtain ⟨rfl, rfl⟩ := Prod.mk.inj heq
  cases addr' with
  | none =>
    obtain rfl := h.alloc_none halloc
    exact Or.inl ⟨rfl, rfl⟩
  | some a => exact Or.inr ⟨a, rfl, rfl, h.alloc halloc⟩

/-- **The blocks of a process** are fresh; a failed request keeps those before it. -/
theorem allocBlocks_spec (h : Spaces k R data b live pm) {blocks : Option (Nat × Nat × Nat)}
    (he : allocBlocks pm = some (blocks, pm')) : pm'.mem = pm.mem ∧ ∃ new,
      Spaces k R data b (new ++ live) pm' ∧ ∀ kstack code ustack, blocks = some (kstack, code, ustack) →
        Spaces k R ((ustack, USER_STACK_ORDER) :: (code, 0) :: (kstack, KERNEL_STACK_ORDER) :: data) b
          (new ++ live) pm' := by
  have drop : ∀ {e live' : List (Nat × Nat)} {pm'}, Spaces k R (e ++ data) b live' pm' →
      Spaces k R data b live' pm' := fun h' =>
    h'.weaken (fun _ hr => hr) h.kernel (fun _ hx => List.mem_append_right _ hx)
      (List.nodup_append.mp h'.nodup).2.1
  simp only [allocBlocks, Option.bind_eq_bind, Option.bind_eq_some_iff] at he
  obtain ⟨⟨addr₁, pm₁⟩, he₁, he⟩ := he
  rcases allocBlock_cases h he₁ with ⟨rfl, rfl⟩ | ⟨kstack, rfl, hm₁, h₁⟩
  · obtain ⟨rfl, rfl⟩ := Prod.mk.inj (Option.some.inj he)
    exact ⟨rfl, [], h, fun _ _ _ hn => by simp at hn⟩
  simp only [Option.bind_eq_some_iff] at he
  obtain ⟨⟨addr₂, pm₂⟩, he₂, he⟩ := he
  rcases allocBlock_cases h₁ he₂ with ⟨rfl, rfl⟩ | ⟨code, rfl, hm₂, h₂⟩
  · obtain ⟨rfl, rfl⟩ := Prod.mk.inj (Option.some.inj he)
    exact ⟨hm₁, [(kstack, KERNEL_STACK_ORDER)], drop (e := [_]) h₁, fun _ _ _ hn => by simp at hn⟩
  simp only [Option.bind_eq_some_iff] at he
  obtain ⟨⟨addr₃, pm₃⟩, he₃, he⟩ := he
  rcases allocBlock_cases h₂ he₃ with ⟨rfl, rfl⟩ | ⟨ustack, rfl, hm₃, h₃⟩
  · obtain ⟨rfl, rfl⟩ := Prod.mk.inj (Option.some.inj he)
    exact ⟨hm₂.trans hm₁, [(code, 0), (kstack, KERNEL_STACK_ORDER)], drop (e := [_, _]) h₂,
      fun _ _ _ hn => by simp at hn⟩
  · obtain ⟨rfl, rfl⟩ := Prod.mk.inj (Option.some.inj he)
    refine ⟨hm₃.trans (hm₂.trans hm₁),
      [(ustack, USER_STACK_ORDER), (code, 0), (kstack, KERNEL_STACK_ORDER)], drop (e := [_, _, _]) h₃,
      fun _ _ _ hs => ?_⟩
    simp only [Option.some.injEq, Prod.mk.injEq] at hs
    obtain ⟨rfl, rfl, rfl⟩ := hs
    exact h₃

/-! ### The program and its stack -/

/-- Page `i` of the stack. -/
def stackCall (stackTop ustack i : Nat) : Call where
  virt := stackTop - USER_STACK_SIZE + i * PAGE_SIZE
  phys := ustack + i * PAGE_SIZE
  flags := EntryFlags.PRESENT ||| EntryFlags.WRITABLE ||| EntryFlags.USER ||| EntryFlags.NX

/-- The two pages below the top of the stack. -/
def stackCalls (stackTop ustack : Nat) : List Call :=
  (List.range 2).map (stackCall stackTop ustack)

/-- The pages of a process: its code, and then its stack. -/
def userCalls (virt code stackTop ustack : Nat) : List Call :=
  { virt := virt, phys := code, flags := EntryFlags.PRESENT ||| EntryFlags.USER } ::
    stackCalls stackTop ustack

theorem mapUserStack_eq {stackTop ustack : Nat}
    (h : mapUserStack pm u stackTop ustack = some pm') :
    mapAll pm u (stackCalls stackTop ustack) = some pm' := by
  simp only [mapUserStack, Option.bind_eq_bind, Option.bind_eq_some_iff, Word.sub_eq_some] at h
  obtain ⟨bottom, ⟨_, hbottom⟩, h⟩ := h
  have hpages : 1 <<< USER_STACK_ORDER = 2 := by decide
  rw [hpages, hbottom] at h
  exact mapAll_of_foldlM (stackCall stackTop ustack) map_of_mapIntoPageTable _ h

theorem stackCalls_low {stackTop : Nat} (h : stackTop < 2 ^ 47) (ustack : Nat) :
    ∀ c ∈ stackCalls stackTop ustack, ¬ High c.virt := by
  intro c hc
  obtain ⟨i, hi, rfl⟩ := List.mem_map.mp hc
  have hi : i < 2 := List.mem_range.mp hi
  refine not_high_of_lt ?_
  have hsize : USER_STACK_SIZE = 8192 := by decide
  simp only [stackCall, hsize, PAGE_SIZE]
  omega

theorem writeCode_bytes {code x : Nat} {bytes : List UInt8} (hlen : bytes.length ≤ PAGE_SIZE)
    (h : writeCode pm code bytes = some pm') (hx : x < code ∨ code + PAGE_SIZE ≤ x) :
    pm'.mem.bytes x = pm.mem.bytes x := by
  obtain ⟨_, _, rfl⟩ := Option.map_eq_some_iff.mp h
  simp only [Memory.copy, Memory.fill]
  rw [if_neg (by omega), if_neg (by omega)]

theorem trapFrame_bytes (ws : List Nat) : ∀ {m : Memory} {a x : Nat},
    (x < a ∨ a + 8 * ws.length ≤ x) → (TrapFrame.write m a ws).bytes x = m.bytes x := by
  induction ws with
  | nil => exact fun _ => rfl
  | cons w ws ih =>
    intro m a x hx
    rw [List.length_cons] at hx
    rw [TrapFrame.write, ih (by omega), Memory.store]
    exact if_neg (by omega)

theorem off_of_not_inBlocks {a o x : Nat} (h : Spaces k R data b live pm) (hm : (a, o) ∈ data)
    (hx : ¬ InBlocks data x) : x < a ∨ a + 2 ^ o * PAGE_SIZE ≤ x := by
  obtain ⟨q, rfl, _⟩ := h.tables.ledger.live_spec (h.held _ hm)
  by_contra hn
  refine hx ⟨_, hm, ?_⟩
  unfold InBlock PAGE_SIZE at *
  simp only
  omega

theorem Spaces.writeCode {code : Nat} {bytes : List UInt8} (h : Spaces k R data b live pm)
    (hc : (code, 0) ∈ data) (hlen : bytes.length ≤ PAGE_SIZE)
    (he : writeCode pm code bytes = some pm') : Spaces k R data b live pm' ∧
      (kernelSpace k R).scheme.Same (kernelSpace k R).root (entry pm.mem) (entry pm'.mem) := by
  have hsame := h.same (m := pm'.mem) fun x hx =>
    writeCode_bytes hlen he (by simpa using off_of_not_inBlocks h hc hx)
  have hpm : { pm with mem := pm'.mem } = pm' := by
    obtain ⟨_, _, rfl⟩ := Option.map_eq_some_iff.mp he
    rfl
  exact ⟨hpm ▸ h.congr hsame, hsame⟩

theorem Spaces.trapFrame {kstack : Nat} (rip stackTop : Nat) (h : Spaces k R data b live pm)
    (hk : (kstack, KERNEL_STACK_ORDER) ∈ data) :
    (kernelSpace k R).scheme.Same (kernelSpace k R).root (entry pm.mem) (entry
      (TrapFrame.write pm.mem (kstack + KERNEL_STACK_SIZE - TrapFrame.SIZE)
        (TrapFrame.newUser rip stackTop))) := by
  refine h.same fun x hx => trapFrame_bytes _ ?_
  have hoff := off_of_not_inBlocks h hk hx
  have hsize : KERNEL_STACK_SIZE = 16384 := by decide
  have hlen : (TrapFrame.newUser rip stackTop).length = 20 := rfl
  rw [hlen, hsize, TrapFrame.SIZE]
  simp only [KERNEL_STACK_ORDER, PAGE_SIZE] at hoff
  omega

theorem userCalls_run {pm₁ pm₂ : PhysMem} {virt code stackTop ustack : Nat}
    (h₁ : mapIntoPageTable pm u virt code (EntryFlags.PRESENT ||| EntryFlags.USER) = some pm₁)
    (h₂ : mapUserStack pm₁ u stackTop ustack = some pm₂) :
    mapAll pm u (userCalls virt code stackTop ustack) = some pm₂ := by
  rw [userCalls, mapAll, List.foldlM_cons, map_of_mapIntoPageTable h₁]
  exact mapUserStack_eq h₂

/-- **A process is loaded**: its program and its trap frame are written, and its pages are
mapped.  With a program in the lower half this is seen in the lower half of the new table
only; with one in the upper half, a page there is open to user code. -/
theorem loadUser_spec {pid kstack code ustack virt rip stackTop i : Nat} {bytes : List UInt8}
    (h : Spaces s.kernelPml4 R data b live s.pm) (hu : u ∈ R) (huk : u ≠ s.kernelPml4)
    (hk : (kstack, KERNEL_STACK_ORDER) ∈ data) (hc : (code, 0) ∈ data)
    (hlen : bytes.length ≤ PAGE_SIZE) (hstack : stackTop < 2 ^ 47)
    (he : s.loadUser pid u (kstack, code, ustack) bytes virt rip stackTop = some (i, s')) :
    ∃ new pm' top trapFrame, Spaces s.kernelPml4 R data b (new ++ live) pm' ∧
      (i, s') = { s with pm := pm' }.addProc {
        pid := pid
        state := .Ready
        pagetable := u
        kstackPhys := kstack
        kstackTop := top
        kind := .User
        ticksLeft := DEFAULT_TIME_SLICE_TICKS
        entry := none
        trapFrame := some trapFrame
        userCodePhys := some code
        userStackPhys := some ustack } ∧
      (∀ v, ¬ High v → walk pm'.mem u v =
        ((lastCall (userCalls virt code stackTop ustack) v).map Call.translation).or
          (walk s.pm.mem u v)) ∧
      (¬ High virt → ∀ r ∈ R, ∀ v, r ≠ u ∨ High v → walk pm'.mem r v = walk s.pm.mem r v) ∧
      (High virt → walk pm'.mem u virt = some ⟨code &&& ADDR_MASK, true, false, false⟩) ∧
      (∀ v, High v → pageBits virt ≠ pageBits v → walk s.pm.mem u v = none →
        walk pm'.mem u v = none) := by
  obtain ⟨pm₁, pm₂, pm₃, top, tf, he₁, he₂, he₃, _, _, hs'⟩ := loadUser_cases he
  obtain ⟨h₁, hs₁⟩ := Spaces.writeCode h hc hlen he₁
  obtain ⟨new, h₃, hlow, hother⟩ := h₁.mapAll_low hu huk (userCalls_run he₂ he₃)
  have hs₄ := Spaces.trapFrame rip stackTop h₃ hk
  have hlows := stackCalls_low hstack ustack
  refine ⟨new, _, top, tf, h₃.congr hs₄, hs', fun v hv => ?_, fun hv r hr v hoff => ?_, fun hv => ?_,
    fun v hv hne hwalk => ?_⟩
  · rw [walk_of_same hs₄ hu, hlow v hv, walk_of_same hs₁ hu]
  · have hall : ∀ c ∈ userCalls virt code stackTop ustack, ¬ High c.virt := by
      intro c hc'
      rcases List.mem_cons.mp hc' with rfl | hc'
      · exact hv
      · exact hlows c hc'
    rw [walk_of_same hs₄ hr, hother hall r hr v hoff, walk_of_same hs₁ hr]
  · have hmap := map_of_mapIntoPageTable he₂
    have ht := h₁.map_user hu huk rfl hmap
    obtain ⟨_, _, h₂, _⟩ := h₁.map hu (Or.inl huk) hmap
    obtain ⟨_, _, _, hkeep⟩ := h₂.mapAll_low hu huk (mapUserStack_eq he₃)
    rw [walk_of_same hs₄ hu, hkeep hlows u hu virt (Or.inr hv), ht]
    rfl
  · rw [walk_of_same hs₄ hu]
    rw [← walk_of_same hs₁ hu] at hwalk
    refine h₁.mapAll_blank hu huk (userCalls_run he₂ he₃) (lastCall_eq_none.mpr fun c hc' => ?_) hwalk
    rcases List.mem_cons.mp hc' with rfl | hc'
    · exact hne
    · exact fun heq => hlows c hc' ((high_congr heq).mpr hv)

end System

end Zeronix
