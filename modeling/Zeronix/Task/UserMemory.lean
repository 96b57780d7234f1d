import Zeronix.Task.Isolation

/-!
# The memory of user tasks

On runs without `spawn_elf` every user process was made by `spawn_user`, so its page table shows
what that call mapped (`Home`): in the lower half the boot data, the code page and the two stack
pages, and in the upper half what the kernel's table shows.  Only the pages of the process are
open to Ring 3, and their frames are blocks of this process alone (`user_isolation`).
-/

namespace Zeronix

open Radix BuddyAllocator Session Mapper Page

namespace System

/-! ### Runs without `spawn_elf` -/

/-- The call is not `spawn_elf`. -/
def Action.plain : Action → Bool
  | .spawnElf _ => false
  | _ => true

inductive PlainStep : System → System → Prop
  | call {s s' : System} (a : Action) : a.plain = true → s.exec a = some s' → PlainStep s s'
  | write {s : System} (m : Memory) : (∀ x, ¬ InBlocks s.data x → m.bytes x = s.pm.mem.bytes x) →
      PlainStep s { s with pm := { s.pm with mem := m } }

abbrev PlainSteps : System → System → Prop := Relation.ReflTransGen PlainStep

variable {s₀ s s' : System} {p : Proc} {b : BuddyAllocator} {live : List (Nat × Nat)}

/-- What a user process has from `spawn_user`. -/
structure Home (s : System) (p : Proc) (base code stackTop ustack : Nat) : Prop where
  pidPos : 1 ≤ p.pid
  pidLe : p.pid ≤ 2 ^ 17 + 1
  codeBase : userCodeBase p.pid = some base
  top : userStackTop p.pid = some stackTop
  userCodePhys : p.userCodePhys = some code
  userStackPhys : p.userStackPhys = some ustack
  low : ∀ v, ¬ High v → walk s.pm.mem p.pagetable v =
    (lastCall (bootCalls ++ userCalls base code stackTop ustack) v).map Call.translation
  high : ∀ v, High v → walk s.pm.mem p.pagetable v = walk s.pm.mem s.kernelPml4 v

def Homes (s : System) : Prop :=
  ∀ p ∈ s.procs, p.kind = .User → ∃ base code stackTop ustack, Home s p base code stackTop ustack

theorem Home.later {q : Proc} {base code stackTop ustack : Nat} (h : Home s p base code stackTop ustack)
    (hqp : q.image = p.image) (hk : s'.kernelPml4 = s.kernelPml4)
    (hpt : ∀ v, walk s'.pm.mem p.pagetable v = walk s.pm.mem p.pagetable v)
    (hkern : ∀ v, walk s'.pm.mem s.kernelPml4 v = walk s.pm.mem s.kernelPml4 v) :
    Home s' q base code stackTop ustack := by
  have hpid : q.pid = p.pid := by
    have hpid := congrArg Proc.pid hqp
    exact hpid
  have hcode : q.userCodePhys = p.userCodePhys := by
    have hcode := congrArg Proc.userCodePhys hqp
    exact hcode
  have hustack : q.userStackPhys = p.userStackPhys := by
    have hustack := congrArg Proc.userStackPhys hqp
    exact hustack
  refine ⟨?_, ?_, ?_, ?_, ?_, ?_, fun v hv => ?_, fun v hv => ?_⟩
  · rw [hpid]
    exact h.pidPos
  · rw [hpid]
    exact h.pidLe
  · rw [hpid]
    exact h.codeBase
  · rw [hpid]
    exact h.top
  · rw [hcode]
    exact h.userCodePhys
  · rw [hustack]
    exact h.userStackPhys
  · rw [pagetable_of_image hqp, hpt, h.low v hv]
  · rw [pagetable_of_image hqp, hpt, hk, hkern, h.high v hv]

theorem Homes.kept (h : s.Homes) (hk : Kept s s') : s'.Homes := by
  intro q hq hkind
  obtain ⟨p, hp, hpq⟩ := hk.users q hq hkind
  have hkind' : p.kind = .User := (kind_of_image hpq).trans hkind
  obtain ⟨base, code, stackTop, ustack, home⟩ := h p hp hkind'
  exact ⟨base, code, stackTop, ustack, home.later hpq.symm hk.kernelPml4
    (hk.walks _ (pagetable_mem hp hkind')) (hk.walks _ List.mem_cons_self)⟩

theorem Homes.spawned {base code stackTop ustack : Nat} (h : s.Homes) (hs : Sound b s live)
    (hb : b.metadata.length ≤ MAX_SUPPORTED_PAGES) (hsp : Spawned s s' p base code stackTop ustack)
    (hbase : userCodeBase p.pid = some base) : s'.Homes := by
  have hpid : p.pid ≤ 2 ^ 17 + 1 := by
    rw [hsp.pid]
    exact hs.pid_lt hb
  have hlow : ¬ High base := not_high_of_lt (by have := codeBase_low hbase hpid; omega)
  have hkept := hsp.loaded.kept hlow
  intro q hq hkind
  rcases hsp.users q hq hkind with hpq | ⟨p', hp', hpq⟩
  · have home : Home s' p base code stackTop ustack := by
      refine ⟨?_, hpid, hbase, hsp.stackTop, hsp.userCodePhys, hsp.userStackPhys, hsp.loaded.low, ?_⟩
      · rw [hsp.pid]
        exact hs.pos
      · intro v hv
        rw [hsp.loaded.upper hlow v hv, hsp.kernelPml4, hkept _ List.mem_cons_self v]
    exact ⟨base, code, stackTop, ustack, home.later hpq.symm rfl (fun _ => rfl) fun _ => rfl⟩
  · have hkind' : p'.kind = .User := (kind_of_image hpq).trans hkind
    obtain ⟨base', code', stackTop', ustack', home⟩ := h p' hp' hkind'
    exact ⟨base', code', stackTop', ustack', home.later hpq.symm hsp.kernelPml4
      (hkept _ (pagetable_mem hp' hkind')) (hkept _ List.mem_cons_self)⟩

theorem PlainStep.step (h : PlainStep s s') : Step s s' := by
  cases h with
  | call a _ he => exact .call a he
  | write m hm => exact .write m hm

/-- **One step keeps the homes.** -/
theorem Homes.step (h : s.Homes) (hs : Sound b s live)
    (hb : b.metadata.length ≤ MAX_SUPPORTED_PAGES) (hstep : PlainStep s s') : s'.Homes := by
  cases hstep with
  | call a ha he =>
    rcases hs.exec_cases hb he with hkept |
      ⟨p, virt, code, stackTop, ustack, hsp, ⟨bytes, rfl, hbase⟩ | ⟨image, parsed, rfl, hacc, rfl⟩⟩
    · exact h.kept hkept
    · exact h.spawned hs hb hsp hbase
    · simp [Action.plain] at ha
  | write m hm => exact h.kept (hs.write_kept hm)

theorem Homes.steps (h : s.Homes) (hs : Sound b s live)
    (hb : b.metadata.length ≤ MAX_SUPPORTED_PAGES) (hrun : PlainSteps s s') :
    s'.Homes ∧ ∃ live', Sound b s' live' := by
  induction hrun with
  | refl => exact ⟨h, live, hs⟩
  | tail _ hstep ih =>
    obtain ⟨h', live', hs'⟩ := ih
    exact ⟨h'.step hs' hb hstep, hs'.step hb hstep.step⟩

/-! ### What is open to Ring 3 -/

/-- Ring 3 reaches `v`, by the translation `t`. -/
def Open (s : System) (p : Proc) (v : Nat) (t : Translation) : Prop :=
  walk s.pm.mem p.pagetable v = some t ∧ t.user = true

theorem Home.pages {base code stackTop ustack : Nat} (h : Home s p base code stackTop ustack) :
    pageBits base ≠ pageBits (stackTop - 2 * PAGE_SIZE) ∧
    pageBits base ≠ pageBits (stackTop - PAGE_SIZE) ∧
    pageBits (stackTop - 2 * PAGE_SIZE) ≠ pageBits (stackTop - PAGE_SIZE) := by
  have hlow := codeBase_low h.codeBase h.pidLe
  have hle := h.pidLe
  have htop := userStackTop_eq h.top
  simp only [USER_SLOT_SIZE, USER_STACK_TOP] at htop
  unfold pageBits PAGE_SIZE
  omega

theorem Home.room {base code stackTop ustack : Nat} (h : Home s p base code stackTop ustack) :
    2 * PAGE_SIZE ≤ stackTop := by
  have hle := h.pidLe
  have htop := userStackTop_eq h.top
  simp only [USER_SLOT_SIZE, USER_STACK_TOP] at htop
  unfold PAGE_SIZE
  omega

theorem lastCall_bootCalls_user {v : Nat} {c : Call} (h : lastCall bootCalls v = some c) :
    c.translation.user = false := by
  obtain ⟨addr, _, rfl⟩ := List.mem_map.mp (lastCall_eq_some h).1
  rfl

theorem lastCall_userCalls {base code stackTop ustack : Nat} (v : Nat) (h : 2 * PAGE_SIZE ≤ stackTop) :
    (lastCall (userCalls base code stackTop ustack) v).map Call.translation =
      if pageBits (stackTop - PAGE_SIZE) = pageBits v then
        some ⟨(ustack + PAGE_SIZE) &&& ADDR_MASK, true, true, true⟩
      else if pageBits (stackTop - 2 * PAGE_SIZE) = pageBits v then
        some ⟨ustack &&& ADDR_MASK, true, true, true⟩
      else if pageBits base = pageBits v then some ⟨code &&& ADDR_MASK, true, false, false⟩
      else none := by
  have hfirst : (stackCall stackTop ustack 0).virt = stackTop - 2 * PAGE_SIZE := by
    have hsize : USER_STACK_SIZE = 2 * PAGE_SIZE := by decide
    simp only [stackCall, hsize]
    omega
  have hsecond : (stackCall stackTop ustack 1).virt = stackTop - PAGE_SIZE := by
    have hsize : USER_STACK_SIZE = 2 * PAGE_SIZE := by decide
    simp only [stackCall, hsize]
    omega
  have hcalls : userCalls base code stackTop ustack =
      [{ virt := base, phys := code, flags := EntryFlags.PRESENT ||| EntryFlags.USER },
        stackCall stackTop ustack 0, stackCall stackTop ustack 1] := rfl
  have htop : (stackCall stackTop ustack 1).translation =
      ⟨(ustack + PAGE_SIZE) &&& ADDR_MASK, true, true, true⟩ := by
    rw [Call.translation, stackCall, Nat.one_mul]
    rfl
  have hnil : lastCall [] v = none := rfl
  rw [hcalls, lastCall_cons, lastCall_cons, lastCall_cons, hfirst, hsecond, hnil, Option.none_or]
  split
  · rw [Option.some_or, Option.some_or, Option.map_some, htop]
  · rw [Option.none_or]
    split
    · rw [Option.some_or]
      rfl
    · rw [Option.none_or]
      split
      · rfl
      · rfl

/-- **What Ring 3 reaches in a user process**: its code page and the two pages of its stack. -/
theorem Home.open_cases {base code stackTop ustack v : Nat} {t : Translation}
    (h : Home s p base code stackTop ustack) (hs : Sound b s live) :
    Open s p v t ↔
      (pageBits v = pageBits base ∧ t = ⟨code &&& ADDR_MASK, true, false, false⟩) ∨
      (pageBits v = pageBits (stackTop - 2 * PAGE_SIZE) ∧
        t = ⟨ustack &&& ADDR_MASK, true, true, true⟩) ∨
      (pageBits v = pageBits (stackTop - PAGE_SIZE) ∧
        t = ⟨(ustack + PAGE_SIZE) &&& ADDR_MASK, true, true, true⟩) := by
  obtain ⟨hbs, hbs', hss'⟩ := h.pages
  have hlowBase : ¬ High base := not_high_of_lt (by have := codeBase_low h.codeBase h.pidLe; omega)
  have hlowTop : ∀ n, ¬ High (stackTop - n) := fun n =>
    not_high_of_lt (by have := stackTop_lt h.top; omega)
  by_cases hv : High v
  · -- the upper half is the kernel's
    have hclosed : ¬ Open s p v t := by
      rintro ⟨ht, hopen⟩
      rw [h.high v hv] at ht
      rw [hs.spaces.kernel_walk ht] at hopen
      simp at hopen
    refine iff_of_false hclosed ?_
    rintro (⟨hb, _⟩ | ⟨hb, _⟩ | ⟨hb, _⟩)
    · exact hlowBase ((high_congr hb).mp hv)
    · exact hlowTop _ ((high_congr hb).mp hv)
    · exact hlowTop _ ((high_congr hb).mp hv)
  · have hboot : ∀ t', (lastCall bootCalls v).map Call.translation = some t' → t'.user = false := by
      intro t' ht'
      obtain ⟨c, hc, rfl⟩ := Option.map_eq_some_iff.mp ht'
      exact lastCall_bootCalls_user hc
    rw [Open, h.low v hv, lastCall_append, Option.map_or, lastCall_userCalls v h.room]
    by_cases h₁ : pageBits (stackTop - PAGE_SIZE) = pageBits v
    · rw [if_pos h₁, Option.some_or, Option.some.injEq]
      simp only [← h₁, hbs'.symm, hss'.symm, false_and, true_and, false_or, eq_comm (a := t)]
      exact and_iff_left_of_imp fun ht => by rw [← ht]
    by_cases h₂ : pageBits (stackTop - 2 * PAGE_SIZE) = pageBits v
    · rw [if_neg h₁, if_pos h₂, Option.some_or, Option.some.injEq]
      simp only [← h₂, hbs.symm, hss', false_and, true_and, false_or, or_false, eq_comm (a := t)]
      exact and_iff_left_of_imp fun ht => by rw [← ht]
    by_cases h₃ : pageBits base = pageBits v
    · rw [if_neg h₁, if_neg h₂, if_pos h₃, Option.some_or, Option.some.injEq]
      simp only [← h₃, hbs, hbs', false_and, true_and, or_false, eq_comm (a := t)]
      exact and_iff_left_of_imp fun ht => by rw [← ht]
    · rw [if_neg h₁, if_neg h₂, if_neg h₃, Option.none_or]
      simp only [eq_comm (a := pageBits v), h₁, h₂, h₃, false_and, or_false, iff_false, not_and]
      intro ht
      rw [hboot t ht]
      simp

/-! ### Frames -/

theorem Home.frame {base code stackTop ustack v : Nat} {t : Translation}
    (h : Home s p base code stackTop ustack) (hs : Sound b s live)
    (hb : b.metadata.length ≤ MAX_SUPPORTED_PAGES) (hp : p ∈ s.procs) (ht : Open s p v t) :
    ∃ blk ∈ p.blocks, blk.2 ≠ KERNEL_STACK_ORDER ∧ InBlock blk.1 blk.2 (t.frame / PAGE_SIZE) := by
  have hpid : p.pid ≠ 0 := Nat.ne_of_gt h.pidPos
  have hblocks : p.blocks = [(p.kstackPhys, KERNEL_STACK_ORDER), (code, 0), (ustack, USER_STACK_ORDER)] := by
    rw [Proc.blocks, if_neg hpid, h.userCodePhys, h.userStackPhys]
    rfl
  have hlive : ∀ blk ∈ p.blocks, blk ∈ live := fun blk hm =>
    hs.spaces.held _ (List.mem_append_left _ (List.mem_flatMap.mpr ⟨p, hp, hm⟩))
  rw [hblocks] at hlive ⊢
  obtain ⟨q, hq, _, hle⟩ := hs.spaces.tables.ledger.live_spec (hlive (code, 0) (by simp))
  obtain ⟨q', hq', _, hle'⟩ := hs.spaces.tables.ledger.live_spec
    (hlive (ustack, USER_STACK_ORDER) (by simp))
  have hmax : MAX_SUPPORTED_PAGES = 2 ^ 17 := by decide
  simp only [USER_STACK_ORDER, PAGE_SIZE] at hq hq' hle'
  rcases (h.open_cases hs).mp ht with ⟨_, rfl⟩ | ⟨_, rfl⟩ | ⟨_, rfl⟩
  · refine ⟨(code, 0), by simp, show 0 ≠ 2 by decide, ?_⟩
    simp only [InBlock, PAGE_SIZE]
    rw [PageTableEntry.and_mask_eq (by omega)]
    omega
  · refine ⟨(ustack, USER_STACK_ORDER), by simp, show 1 ≠ 2 by decide, ?_⟩
    simp only [InBlock, PAGE_SIZE, USER_STACK_ORDER]
    rw [PageTableEntry.and_mask_eq (by omega)]
    omega
  · refine ⟨(ustack, USER_STACK_ORDER), by simp, show 1 ≠ 2 by decide, ?_⟩
    simp only [InBlock, PAGE_SIZE, USER_STACK_ORDER]
    rw [PageTableEntry.and_mask_eq (by omega)]
    omega

theorem blocks_disjoint (hnd : s.data.Nodup) {q : Proc} {i j : Nat} (hi : s.procs[i]? = some p)
    (hj : s.procs[j]? = some q) (hne : j ≠ i) {blk : Nat × Nat} (hm : blk ∈ p.blocks) :
    blk ∉ q.blocks := by
  have hpair := (List.nodup_flatMap.mp (List.nodup_append.mp hnd).1).2
  obtain ⟨hi', rfl⟩ := List.getElem?_eq_some_iff.mp hi
  obtain ⟨hj', rfl⟩ := List.getElem?_eq_some_iff.mp hj
  rw [List.pairwise_iff_getElem] at hpair
  rcases Nat.lt_or_gt_of_ne hne with hlt | hlt
  · exact fun hm' => hpair j i hj' hi' hlt hm' hm
  · exact fun hm' => hpair i j hi' hj' hlt hm hm'

theorem Sound.block_unique (h : Sound b s live) {blk blk' : Nat × Nat} {x : Nat}
    (hm : blk ∈ s.data) (hm' : blk' ∈ s.data) (hx : InBlock blk.1 blk.2 x)
    (hx' : InBlock blk'.1 blk'.2 x) : blk = blk' := by
  obtain ⟨h₁, h₂⟩ := h.spaces.tables.ledger.live_unique (h.spaces.held _ hm) (h.spaces.held _ hm') hx hx'
  exact Prod.ext h₁ h₂

/-- A frame that holds a page table in use. -/
def IsTable (s : System) (t : Nat) : Prop :=
  (kernelSpace s.kernelPml4 s.roots).scheme.Reached (kernelSpace s.kernelPml4 s.roots).root
    (entry s.pm.mem) t

/-- **User tasks are isolated.**  In the page table of a user process the pages open to Ring 3
are its code page, which is not writable, and the two pages below the top of its stack, which are
not executable.  No byte behind them belongs to another process or to a page of another process
open to Ring 3, to the kernel stack of the process, to a page table, to a chunk of the heap or to
what was reserved at boot. -/
theorem user_isolation {metadata : List PageInfo} {memMap : List MemoryArea}
    {reserved : List (Nat × Nat)} {mem : Memory} {l : BootLayout} {ring0StackTop i : Nat}
    (hlen : metadata.length ≤ MAX_SUPPORTED_PAGES) (hareas : DisjointAreas memMap)
    (hboot : boot metadata memMap reserved mem l ring0StackTop = some s₀) (hrun : PlainSteps s₀ s)
    (hi : s.procs[i]? = some p) (hkind : p.kind = .User) :
    ∃ base stackTop, userCodeBase p.pid = some base ∧ userStackTop p.pid = some stackTop ∧
      (∀ v, (∃ t, Open s p v t) ↔ pageBits v = pageBits base ∨
        pageBits v = pageBits (stackTop - 2 * PAGE_SIZE) ∨ pageBits v = pageBits (stackTop - PAGE_SIZE)) ∧
      (∀ v t, Open s p v t → (pageBits v = pageBits base → t.writable = false) ∧
        (pageBits v ≠ pageBits base → t.nx = true)) ∧
      ∀ v t, Open s p v t → ∀ x, x / PAGE_SIZE = t.frame / PAGE_SIZE →
        (∀ j q, s.procs[j]? = some q → j ≠ i → ¬ InBlocks q.blocks x ∧
          (q.kind = .User → ∀ v' t', Open s q v' t' → x / PAGE_SIZE ≠ t'.frame / PAGE_SIZE)) ∧
        ¬ InBlocks [(p.kstackPhys, KERNEL_STACK_ORDER)] x ∧
        (∀ t, IsTable s t → x / PAGE_SIZE ≠ t / PAGE_SIZE) ∧
        ¬ InBlocks (s.chunks.map fun a => (a, CHUNK_ORDER)) x ∧
        ∀ r ∈ reserved, ¬ (r.1 ≤ x ∧ x < r.2) := by
  obtain ⟨b, live₀, hnew, hsound, hb, hstart⟩ := boot_sound hlen hareas hboot
  have hnone : s₀.Homes := by
    intro p hp
    rw [hstart.1] at hp
    simp at hp
  obtain ⟨homes, live, hs⟩ := hnone.steps hsound hb hrun
  have hp := List.mem_of_getElem? hi
  obtain ⟨base, code, stackTop, ustack, home⟩ := homes p hp hkind
  have hmine : ∀ {q : Proc} {blk}, q ∈ s.procs → blk ∈ q.blocks → blk ∈ s.data := fun hq hm =>
    List.mem_append_left _ (List.mem_flatMap.mpr ⟨_, hq, hm⟩)
  refine ⟨base, stackTop, home.codeBase, home.top, fun v => ⟨?_, ?_⟩, fun v t ht => ?_,
    fun v t ht x hx => ?_⟩
  · rintro ⟨t, ht⟩
    exact ((home.open_cases hs).mp ht).imp And.left (Or.imp And.left And.left)
  · rintro (hv | hv | hv)
    · exact ⟨_, (home.open_cases hs).mpr (Or.inl ⟨hv, rfl⟩)⟩
    · exact ⟨_, (home.open_cases hs).mpr (Or.inr (Or.inl ⟨hv, rfl⟩))⟩
    · exact ⟨_, (home.open_cases hs).mpr (Or.inr (Or.inr ⟨hv, rfl⟩))⟩
  · obtain ⟨hbs, hbs', _⟩ := home.pages
    rcases (home.open_cases hs).mp ht with ⟨hv, rfl⟩ | ⟨hv, rfl⟩ | ⟨hv, rfl⟩
    · exact ⟨fun _ => rfl, fun hne => absurd hv hne⟩
    · exact ⟨fun heq => absurd (heq.symm.trans hv) hbs, fun _ => rfl⟩
    · exact ⟨fun heq => absurd (heq.symm.trans hv) hbs', fun _ => rfl⟩
  · obtain ⟨blk, hm, horder, hin⟩ := home.frame hs hb hp ht
    have hdata := hmine hp hm
    rw [← hx] at hin
    have hother : ∀ j q, s.procs[j]? = some q → j ≠ i → ¬ InBlocks q.blocks x := by
      rintro j q hj hne ⟨blk', hm', hin'⟩
      obtain rfl := hs.block_unique hdata (hmine (List.mem_of_getElem? hj) hm') hin hin'
      exact blocks_disjoint hs.spaces.nodup hi hj hne hm hm'
    refine ⟨fun j q hj hne => ⟨hother j q hj hne, fun hk v' t' ht' heq => ?_⟩, ?_, fun t ht heq => ?_, ?_,
      fun r hr => hs.spaces.tables.ledger.unreserved hlen hareas hnew (hs.spaces.held _ hdata) hin hr⟩
    · have hq := List.mem_of_getElem? hj
      obtain ⟨_, _, _, _, home'⟩ := homes q hq hk
      obtain ⟨blk', hm', _, hin'⟩ := home'.frame hs hb hq ht'
      exact hother j q hj hne ⟨blk', hm', by rw [heq]; exact hin'⟩
    · rintro ⟨blk', hm', hin'⟩
      obtain rfl := List.mem_singleton.mp hm'
      have hstack : (p.kstackPhys, KERNEL_STACK_ORDER) ∈ p.blocks := by
        rw [Proc.blocks, if_neg (Nat.ne_of_gt home.pidPos)]
        exact List.mem_cons_self
      obtain rfl := hs.block_unique hdata (hmine hp hstack) hin hin'
      exact horder rfl
    · have hlive := hs.spaces.tables.held ht
      have hpage : InBlock t 0 (x / PAGE_SIZE) := by
        rw [heq]
        exact ⟨le_refl _, Nat.lt_succ_self _⟩
      obtain ⟨h₁, h₂⟩ := hs.spaces.tables.ledger.live_unique (hs.spaces.held _ hdata) hlive hin hpage
      exact hs.spaces.apart ht (by rw [← h₁, ← h₂]; exact hdata)
    · rintro ⟨blk', hm', hin'⟩
      obtain rfl := hs.block_unique hdata (List.mem_append_right _ hm') hin hin'
      exact (List.nodup_append.mp hs.spaces.nodup).2.2 blk (List.mem_flatMap.mpr ⟨p, hp, hm⟩) blk hm' rfl

/-- The first user task has its code at `0x600000`. -/
theorem user_isolation_first_task : ∃ s₀ s p, machineBoot = some s₀ ∧ PlainSteps s₀ s ∧
    s.procs[1]? = some p ∧ p.kind = .User ∧
    ∀ v, (∃ t, Open s p v t) ↔ pageBits v = 0x600 ∨ pageBits v = 0x7ffffffff - 0x202 ∨
      pageBits v = 0x7ffffffff - 0x201 := by
  obtain ⟨s₀, s₂, b, live, s, hboot, h, he, p, hp, hkind, hpid⟩ :=
    machine_spawnUser (show [(0x90 : UInt8)].length ≤ PAGE_SIZE by decide)
  obtain ⟨s₁, hgrow, hinit⟩ := h.start
  have hexec : s₂.exec (.spawnUser [0x90]) = some s := by
    rw [exec, he]
    rfl
  have hsteps : PlainSteps s₀ s :=
    .tail (.tail (.single (.call .growHeap rfl hgrow)) (.call .init rfl hinit)) (.call _ rfl hexec)
  obtain ⟨base, stackTop, hbase, htop, hopen, _⟩ :=
    user_isolation machine_max machine_disjoint hboot hsteps hp hkind
  rw [hpid] at hbase htop
  obtain rfl := Option.some.inj ((show userCodeBase 1 = some 0x600000 by decide).symm.trans hbase)
  obtain rfl := Option.some.inj ((show userStackTop 1 = some 0x7fffffdff000 by decide).symm.trans htop)
  exact ⟨s₀, s, p, hboot, hsteps, hp, hkind, hopen⟩

end System

end Zeronix
