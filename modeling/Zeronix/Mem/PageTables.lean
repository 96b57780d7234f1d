import Zeronix.Mem.PageMapper

/-!
# What mapping a page does

The page tables over a set of roots form a radix tree whose tables are live frames of the
buddy allocator (`Tables`).  `map` changes that tree along the way of the mapped address only
(`map_spec`): tables that are missing become fresh frames, the entries on the way gain flags,
and the last entry is written.

The permissions of a walk are those of its last entry.  `WRITABLE` and `NX` are plain, since
an entry that points at a table is always writable and never forbids execution.  For `USER`
it takes an invariant: on a way that belongs to one root alone, a last entry with the flag has
it on every entry above (`Covered`).
-/

namespace Zeronix

open Radix BuddyAllocator Session

/-! ### Taking frames -/

/-- One frame for a page table. -/
def BuddyAllocator.takeFrame (b : BuddyAllocator) : Option BuddyAllocator :=
  match b.allocateBelow 0 EARLY_PAGE_TABLE_LIMIT with
  | some (some _, b) => some b
  | _ => none

def BuddyAllocator.takeFrames (b : BuddyAllocator) : Nat → Option BuddyAllocator
  | 0 => some b
  | n + 1 => (takeFrames b n).bind takeFrame

theorem BuddyAllocator.takeFrames_add (b : BuddyAllocator) (n k : Nat) :
    b.takeFrames (n + k) = (b.takeFrames n).bind fun b => b.takeFrames k := by
  induction k with
  | zero => simp [takeFrames]
  | succ k ih => rw [← Nat.add_assoc, takeFrames, ih, Option.bind_assoc]; rfl

theorem BuddyAllocator.takeFrames_none {b : BuddyAllocator} {n k : Nat} (h : b.takeFrames n = none)
    (hle : n ≤ k) : b.takeFrames k = none := by
  obtain ⟨d, rfl⟩ := Nat.exists_eq_add_of_le hle
  rw [takeFrames_add, h]
  rfl

namespace Mapper

open PageTableEntry

/-! ### Entries in memory -/

theorem index_lt (virt shift : Nat) : index virt shift < TABLE_ENTRIES :=
  Nat.lt_of_le_of_lt Nat.and_le_right (by decide)

theorem entryAt_apart {t u i j : Nat} (ht : PAGE_SIZE ∣ t) (hu : PAGE_SIZE ∣ u)
    (hi : i < TABLE_ENTRIES) (hj : j < TABLE_ENTRIES) (hne : u = t → j ≠ i) :
    Memory.Apart (entryAt t i) (entryAt u j) := by
  obtain ⟨a, rfl⟩ := ht
  obtain ⟨c, rfl⟩ := hu
  unfold Memory.Apart entryAt PAGE_SIZE TABLE_ENTRIES at *
  by_cases h : c = a
  · subst h
    have := hne rfl
    omega
  · omega

theorem entry_store_self (m : Memory) (t i : Nat) {v : Nat} (hv : v < 2 ^ 64) :
    entry (m.store (entryAt t i) v) t i = v := m.load_store_self _ hv

theorem entry_addFlags_self (m : Memory) (t i : Nat) (F : EntryFlags) :
    entry (m.store (entryAt t i) (addFlags (entry m t i) F)) t i = addFlags (entry m t i) F :=
  entry_store_self m t i (addFlags_lt (m.load_lt _) F)

theorem entry_store_ne (m : Memory) {t u i j : Nat} (v : Nat) (ht : PAGE_SIZE ∣ t)
    (hu : PAGE_SIZE ∣ u) (hi : i < TABLE_ENTRIES) (hj : j < TABLE_ENTRIES) (hne : u = t → j ≠ i) :
    entry (m.store (entryAt t i) v) u j = entry m u j :=
  m.load_store_apart v (entryAt_apart ht hu hi hj hne)

theorem entry_fill_self (m : Memory) (f : Nat) {j : Nat} (hj : j < TABLE_ENTRIES) :
    entry (m.fill f PAGE_SIZE 0) f j = 0 := by
  unfold TABLE_ENTRIES at hj
  exact m.load_fill_zero (by unfold entryAt; omega) (by unfold entryAt PAGE_SIZE; omega)

theorem entry_fill_ne (m : Memory) {f u j : Nat} (hf : PAGE_SIZE ∣ f) (hu : PAGE_SIZE ∣ u)
    (hj : j < TABLE_ENTRIES) (hne : u ≠ f) : entry (m.fill f PAGE_SIZE 0) u j = entry m u j := by
  refine m.load_fill_apart 0 ?_
  obtain ⟨a, rfl⟩ := hf
  obtain ⟨c, rfl⟩ := hu
  unfold entryAt PAGE_SIZE TABLE_ENTRIES at *
  omega

/-! ### The tree of tables -/

/-- The roots of the page tables, and the part of the first level that they share. -/
structure Space where
  base : Nat
  shared : Nat → Bool
  root : Nat → Prop

def Space.scheme (σ : Space) : Scheme Nat := Mapper.scheme σ.base σ.shared

/-- An entry that points at a table. -/
structure TableEntry (e : Nat) : Prop where
  writable : (flags e).writable = true
  small : (flags e).huge = false
  exec : (flags e).nx = false

/-- An entry that lets user code pass. -/
def UserEntry (e : Nat) : Prop := (flags e).present = true ∧ (flags e).user = true

/-- The tables are live frames and form a tree. -/
structure Tables (σ : Space) (b : BuddyAllocator) (live : List (Nat × Nat)) (pm : PhysMem) :
    Prop where
  ledger : Ledger b { allocator := pm.buddy, live := live }
  tree : σ.scheme.Tree σ.root (entry pm.mem)
  held : ∀ {t}, σ.scheme.Reached σ.root (entry pm.mem) t → (t, 0) ∈ live
  good : ∀ {r p i t}, σ.root r → σ.scheme.Path (i :: p) →
    σ.scheme.descend (entry pm.mem) r p = some t → isPresent (entry pm.mem t i) = true →
    TableEntry (entry pm.mem t i)

/-- Growth of the tree along one way, by the frames of `new`.  Entries above the last level
lose no `USER`, and gain it only where `user` says so. -/
structure Grew (σ : Space) (b : BuddyAllocator) (r : Nat) (full : List Nat) (user : Bool)
    (pm : PhysMem) (live new : List (Nat × Nat)) (pm' : PhysMem) : Prop where
  tables : Tables σ b (new ++ live) pm'
  along : σ.scheme.Along σ.root (entry pm.mem) 0 r full (entry pm'.mem)
  raised : ∀ {r' q u j}, σ.root r' → σ.scheme.Path (j :: q) →
    σ.scheme.descend (entry pm.mem) r' q = some u → UserEntry (entry pm.mem u j) →
    UserEntry (entry pm'.mem u j)
  calm : user = false → ∀ {r' q u j}, σ.root r' → σ.scheme.Path (j :: q) →
    σ.scheme.descend (entry pm.mem) r' q = some u → (flags (entry pm'.mem u j)).user = true →
    (flags (entry pm.mem u j)).user = true
  reached : ∀ {u}, σ.scheme.Reached σ.root (entry pm'.mem) u →
    σ.scheme.Reached σ.root (entry pm.mem) u ∨ (u, 0) ∈ new
  taken : pm.buddy.takeFrames new.length = some pm'.buddy

variable {σ : Space} {b : BuddyAllocator} {live new : List (Nat × Nat)} {pm pm' pm'' : PhysMem}
variable {r r' t t' i j : Nat} {p q full : List Nat} {F : EntryFlags} {user : Bool}

theorem Tables.dvd (h : Tables σ b live pm) (ht : σ.scheme.Reached σ.root (entry pm.mem) t) :
    PAGE_SIZE ∣ t := by
  obtain ⟨q, rfl, _⟩ := h.ledger.live_spec (h.held ht)
  exact Nat.dvd_mul_left _ _

theorem Grew.trans {new' : List (Nat × Nat)} (h : Grew σ b r full user pm live new pm')
    (h' : Grew σ b r full user pm' (new ++ live) new' pm'') :
    Grew σ b r full user pm live (new' ++ new) pm'' where
  tables := by rw [List.append_assoc]; exact h'.tables
  along := h.along.trans h'.along
  raised := fun hr hp hd hu => h'.raised hr hp (h.along.mono hr hp.tail hd) (h.raised hr hp hd hu)
  calm := fun hno _ _ _ _ hr hp hd hu =>
    h.calm hno hr hp hd (h'.calm hno hr hp (h.along.mono hr hp.tail hd) hu)
  reached := by
    intro u hu
    rw [List.mem_append]
    rcases h'.reached hu with hu | hu
    · exact (h.reached hu).imp_right Or.inr
    · exact Or.inr (Or.inl hu)
  taken := by rw [List.length_append, Nat.add_comm, takeFrames_add, h.taken]; exact h'.taken

theorem Grew.allOn (h : Grew σ b r full user pm live new pm') (hr : σ.root r') (hp : σ.scheme.Path p)
    (ha : σ.scheme.AllOn UserEntry (entry pm.mem) r' p) :
    σ.scheme.AllOn UserEntry (entry pm'.mem) r' p :=
  h.along.allOn hr (fun hp hd hu => h.raised hr hp hd hu) hp ha

/-! ### One level -/

theorem child_eq (e : Nat) : σ.scheme.child e = if isPresent e then some (addr e) else none := rfl

theorem child_zero : σ.scheme.child 0 = none := rfl

theorem Tables.sameBut (h : Tables σ b live pm) (ht : σ.scheme.Reached σ.root (entry pm.mem) t)
    (hi : i < TABLE_ENTRIES) (v : Nat) : σ.scheme.SameBut σ.root (entry pm.mem)
      (entry (pm.mem.store (entryAt t i) v)) t i := by
  intro u j hu hj hne
  exact entry_store_ne pm.mem v (h.dvd ht) (h.dvd hu) hi hj hne

theorem addFlags_spec (h : Tables σ b live pm) (hr : σ.root r) (hp : σ.scheme.Path (i :: p))
    (ht : σ.scheme.descend (entry pm.mem) r p = some t) (hfull : i :: p <:+ full)
    (hF : TableEntry F.bits) (hpres : isPresent (entry pm.mem t i) = true) :
    Grew σ b r full F.user pm live []
      { pm with mem := pm.mem.store (entryAt t i) (addFlags (entry pm.mem t i) F) } := by
  have hreach : σ.scheme.Reached σ.root (entry pm.mem) t := ⟨r, p, hr, hp.tail, ht⟩
  have hself := entry_addFlags_self pm.mem t i F
  have hsame := h.sameBut hreach hp.head_lt (addFlags (entry pm.mem t i) F)
  have hkeep : p.length < σ.scheme.depth → σ.scheme.child
      (entry (pm.mem.store (entryAt t i) (addFlags (entry pm.mem t i) F)) t i) =
        σ.scheme.child (entry pm.mem t i) := by
    intro _
    rw [hself, child_eq, child_eq, addr_addFlags, isPresent_eq, flags_addFlags,
      EntryFlags.or_present, ← isPresent_eq, hpres, Bool.true_or]
  have hd : ∀ {r' q}, σ.root r' → σ.scheme.Path q → σ.scheme.descend _ r' q = _ :=
    fun hr' hq => hsame.descend_eq h.tree hr hp.tail ht hkeep hr' hq
  have hFflags : flags F.bits = F := F.fromBitsTruncate_bits
  have hold := h.good hr hp ht hpres
  refine ⟨⟨h.ledger, hsame.tree h.tree hr hp.tail ht hkeep, ?_, ?_⟩,
    hsame.along h.tree hr hp.tail ht hkeep hfull, ?_, ?_, ?_, rfl⟩
  · rintro u ⟨r', q, hr', hq, hu⟩
    rw [hd hr' hq] at hu
    exact h.held ⟨r', q, hr', hq, hu⟩
  · intro r' q j u hr' hq hu hpj
    rw [hd hr' hq.tail] at hu
    by_cases heq : u = t ∧ j = i
    · obtain ⟨rfl, rfl⟩ := heq
      rw [hself]
      refine ⟨?_, ?_, ?_⟩
      · rw [flags_addFlags, EntryFlags.or_writable, hold.writable, Bool.true_or]
      · rw [flags_addFlags, EntryFlags.or_huge, hold.small, ← hFflags, hF.small]
        rfl
      · rw [flags_addFlags, EntryFlags.or_nx, hold.exec, ← hFflags, hF.exec]
        rfl
    · have hent := hsame ⟨r', q, hr', hq.tail, hu⟩ hq.head_lt fun h1 h2 => heq ⟨h1, h2⟩
      rw [hent] at hpj ⊢
      exact h.good hr' hq hu hpj
  · intro r' q u j hr' hq hu huser
    by_cases heq : u = t ∧ j = i
    · obtain ⟨rfl, rfl⟩ := heq
      rw [hself, UserEntry, flags_addFlags, EntryFlags.or_present, EntryFlags.or_user, huser.1,
        huser.2]
      exact ⟨rfl, rfl⟩
    · rw [hsame ⟨r', q, hr', hq.tail, hu⟩ hq.head_lt fun h1 h2 => heq ⟨h1, h2⟩]
      exact huser
  · intro hno r' q u j hr' hq hu huser
    by_cases heq : u = t ∧ j = i
    · obtain ⟨rfl, rfl⟩ := heq
      rw [hself, flags_addFlags, EntryFlags.or_user, hno, Bool.or_false] at huser
      exact huser
    · rw [hsame ⟨r', q, hr', hq.tail, hu⟩ hq.head_lt fun h1 h2 => heq ⟨h1, h2⟩] at huser
      exact huser
  · rintro u ⟨r', q, hr', hq, hu⟩
    rw [hd hr' hq] at hu
    exact Or.inl ⟨r', q, hr', hq, hu⟩

theorem physToVirt_of_lt {phys : Nat} (h : phys < 2 ^ 47) : ∃ virt, physToVirt phys = some virt := by
  have hroom : Word.modulus - KERNEL_VMA = 2 ^ 47 := by decide
  exact ⟨phys + KERNEL_VMA, by rw [physToVirt, hroom, if_pos h]⟩

theorem endsBelow_limit {q : Nat} (h : endsBelow 0 EARLY_PAGE_TABLE_LIMIT q = true) :
    (q + 1) * PAGE_SIZE ≤ EARLY_PAGE_TABLE_LIMIT := by
  unfold endsBelow at h
  cases hadd : Word.add (q * PAGE_SIZE) ((1 <<< 0) * PAGE_SIZE) with
  | none => rw [hadd] at h; simp at h
  | some stop =>
    rw [hadd] at h
    have hle : stop ≤ EARLY_PAGE_TABLE_LIMIT := of_decide_eq_true h
    have hstop := (Word.add_eq_some.mp hadd).2
    rw [Nat.shiftLeft_zero] at hstop
    clear h hadd
    rw [Nat.add_mul]
    omega

theorem lt_of_endsBelow {q : Nat} (h : endsBelow 0 EARLY_PAGE_TABLE_LIMIT q = true) :
    q * PAGE_SIZE < 2 ^ 47 := by
  have hle := endsBelow_limit h
  have hlim : EARLY_PAGE_TABLE_LIMIT < 2 ^ 47 := by decide
  rw [Nat.add_mul] at hle
  omega

theorem takeFrame_cases (h : Ledger b { allocator := pm.buddy, live := live }) :
    (pm.buddy.allocateBelow 0 EARLY_PAGE_TABLE_LIMIT = some (none, pm.buddy) ∧
      pm.buddy.takeFrames 1 = none) ∨
    ∃ f a, pm.buddy.allocateBelow 0 EARLY_PAGE_TABLE_LIMIT = some (some f, a) ∧
      pm.buddy.takeFrames 1 = some a ∧ PAGE_SIZE ∣ f ∧ f < 2 ^ 47 ∧ f &&& ADDR_MASK = f ∧
      Ledger b { allocator := a, live := (f, 0) :: live } := by
  have htake : pm.buddy.takeFrames 1 = pm.buddy.takeFrame := rfl
  rw [htake, takeFrame, allocateBelow]
  rcases h.allocateWhere 0 (endsBelow 0 EARLY_PAGE_TABLE_LIMIT) with he | ⟨q, a, he, hpred, hled⟩
  · rw [he]
    exact Or.inl ⟨rfl, rfl⟩
  · have hlt := lt_of_endsBelow hpred
    rw [he]
    refine Or.inr ⟨q * PAGE_SIZE, a, rfl, rfl, Nat.dvd_mul_left _ _, hlt, ?_, hled⟩
    rw [and_mask_eq (by omega), PAGE_SIZE, Nat.mul_div_cancel _ (by decide)]

theorem createTable_of_none {a : BuddyAllocator} {e : Nat}
    (h : pm.buddy.allocateBelow 0 EARLY_PAGE_TABLE_LIMIT = some (none, a)) :
    createTable pm e F = none := by
  rw [createTable, h]
  rfl

theorem createTable_of_some {a : BuddyAllocator} {e f virt : Nat}
    (h : pm.buddy.allocateBelow 0 EARLY_PAGE_TABLE_LIMIT = some (some f, a))
    (hv : physToVirt f = some virt) : createTable pm e F =
      some { buddy := a, mem := (pm.mem.store e (setAddr f F)).fill f PAGE_SIZE 0 } := by
  have hlink : linkTable pm.mem e f F =
      some ((pm.mem.store e (setAddr f F)).fill f PAGE_SIZE 0) := by rw [linkTable, hv, Option.map_some]
  simp only [createTable, h, Option.bind_eq_bind, Option.bind_some, hlink, Option.map_some]

theorem createTable_spec (h : Tables σ b live pm) (hr : σ.root r) (hp : σ.scheme.Path (i :: p))
    (ht : σ.scheme.descend (entry pm.mem) r p = some t) (hfull : i :: p <:+ full)
    (hF : TableEntry F.bits) (hFp : F.present = true)
    (habs : isPresent (entry pm.mem t i) = false) :
    (createTable pm (entryAt t i) F = none ∧ pm.buddy.takeFrames 1 = none) ∨
    ∃ f pm', createTable pm (entryAt t i) F = some pm' ∧ Grew σ b r full F.user pm live [(f, 0)] pm' ∧
      entry pm'.mem t i = setAddr f F ∧ addr (setAddr f F) = f := by
  have hreach : σ.scheme.Reached σ.root (entry pm.mem) t := ⟨r, p, hr, hp.tail, ht⟩
  rcases takeFrame_cases h.ledger with ⟨he, htake⟩ | ⟨f, a, he, htake, hfd, hlow, hmask, hled⟩
  · exact Or.inl ⟨createTable_of_none he, htake⟩
  · obtain ⟨virt, hvirt⟩ := physToVirt_of_lt hlow
    have hnew : ∀ {u}, σ.scheme.Reached σ.root (entry pm.mem) u → u ≠ f := by
      rintro u hu rfl
      exact (List.nodup_cons.mp hled.nodup).1 (h.held hu)
    have hFflags : flags F.bits = F := F.fromBitsTruncate_bits
    -- the memory after the entry is written and the frame cleared
    let m' := (pm.mem.store (entryAt t i) (setAddr f F)).fill f PAGE_SIZE 0
    have hself : entry m' t i = setAddr f F :=
      (entry_fill_ne _ hfd (h.dvd hreach) hp.head_lt (hnew hreach)).trans
        (entry_store_self pm.mem t i (setAddr_lt f F))
    have hsame : σ.scheme.SameBut σ.root (entry pm.mem) (entry m') t i := by
      intro u j hu hj hne
      exact (entry_fill_ne _ hfd (h.dvd hu) hj (hnew hu)).trans
        (h.sameBut hreach hp.head_lt (setAddr f F) hu hj hne)
    have haddr : addr (setAddr f F) = f := (addr_setAddr f F).trans hmask
    have hnone : σ.scheme.child (entry pm.mem t i) = none := by rw [child_eq, habs]; rfl
    have hchild : σ.scheme.child (entry m' t i) = some f := by
      rw [hself, child_eq, isPresent_eq, flags_setAddr, hFp, haddr]
      rfl
    have hblank : ∀ j < σ.scheme.width, entry m' f j = 0 := fun j hj => entry_fill_self _ f hj
    have hd : ∀ {r' q u}, σ.root r' → σ.scheme.Path q → (σ.scheme.descend (entry m') r' q = some u ↔
        σ.scheme.descend (entry pm.mem) r' q = some u ∨
          u = f ∧ ∃ q', q = i :: q' ∧ σ.scheme.descend (entry pm.mem) r' q' = some t) :=
      fun hr' hq => hsame.link_descend child_zero hnone hchild hblank hr' hq
    refine Or.inr ⟨f, { buddy := a, mem := m' }, createTable_of_some he hvirt,
      ⟨⟨hled, ?_, ?_, ?_⟩, ?_, ?_, ?_, ?_, htake⟩, hself, haddr⟩
    · exact hsame.link_tree h.tree child_zero hnone hchild hblank fun hu => hnew hu rfl
    · intro u hu
      rcases hsame.link_reached child_zero hnone hchild hblank hu with hu | rfl
      · exact List.mem_cons_of_mem _ (h.held hu)
      · exact List.mem_cons_self
    · intro r' q' j u hr' hq hu hpj
      rcases (hd hr' hq.tail).mp hu with hu | ⟨rfl, _⟩
      · by_cases heq : u = t ∧ j = i
        · obtain ⟨rfl, rfl⟩ := heq
          show TableEntry (entry m' u j)
          rw [hself]
          refine ⟨?_, ?_, ?_⟩
          · rw [flags_setAddr, ← hFflags, hF.writable]
          · rw [flags_setAddr, ← hFflags, hF.small]
          · rw [flags_setAddr, ← hFflags, hF.exec]
        · have hent := hsame ⟨r', q', hr', hq.tail, hu⟩ hq.head_lt fun h1 h2 => heq ⟨h1, h2⟩
          simp only at hpj ⊢
          rw [hent] at hpj ⊢
          exact h.good hr' hq hu hpj
      · simp only at hpj
        rw [hblank j hq.head_lt] at hpj
        simp [isPresent] at hpj
    · exact hsame.link_along h.tree hr hp.tail ht child_zero hnone hchild hblank hfull
    · intro r' q' u j hr' hq hu huser
      have hne : u = t → j ≠ i := by
        rintro rfl rfl
        rw [isPresent_eq, huser.1] at habs
        simp at habs
      simp only
      rw [hsame ⟨r', q', hr', hq.tail, hu⟩ hq.head_lt hne]
      exact huser
    · intro hno r' q' u j hr' hq hu huser
      simp only at huser
      by_cases heq : u = t ∧ j = i
      · obtain ⟨rfl, rfl⟩ := heq
        rw [hself, flags_setAddr, hno] at huser
        simp at huser
      · rw [hsame ⟨r', q', hr', hq.tail, hu⟩ hq.head_lt fun h1 h2 => heq ⟨h1, h2⟩] at huser
        exact huser
    · intro u hu
      rcases hsame.link_reached child_zero hnone hchild hblank hu with hu | rfl
      · exact Or.inl hu
      · exact Or.inr List.mem_cons_self

theorem tableFlags_spec (flags : EntryFlags) : TableEntry (tableFlags flags).bits ∧
    (tableFlags flags).present = true ∧ (tableFlags flags).user = flags.user := by
  unfold tableFlags
  cases flags.user
  · exact ⟨⟨rfl, rfl, rfl⟩, rfl, rfl⟩
  · exact ⟨⟨rfl, rfl, rfl⟩, rfl, rfl⟩

/-- **One level of `map`**: the table below an entry is there afterwards. -/
theorem getOrCreateTable_spec (h : Tables σ b live pm) (hr : σ.root r)
    (hp : σ.scheme.Path (i :: p)) (ht : σ.scheme.descend (entry pm.mem) r p = some t)
    (hfull : i :: p <:+ full) (hF : TableEntry F.bits) (hFp : F.present = true) :
    (getOrCreateTable pm (entryAt t i) F = none ∧ pm.buddy.takeFrames 1 = none) ∨
    ∃ t' pm' new, getOrCreateTable pm (entryAt t i) F = some (t', pm') ∧ new.length ≤ 1 ∧
      Grew σ b r full F.user pm live new pm' ∧
      σ.scheme.descend (entry pm'.mem) r (i :: p) = some t' ∧
      (F.user = true → UserEntry (entry pm'.mem t i)) := by
  -- once the entry is present and the tree has grown, the rest is reading it back
  have finish : ∀ pm' new, ensureTable pm (entryAt t i) F = some pm' → new.length ≤ 1 →
      Grew σ b r full F.user pm live new pm' → isPresent (entry pm'.mem t i) = true →
      (F.user = true → UserEntry (entry pm'.mem t i)) →
      ∃ t' pm' new, getOrCreateTable pm (entryAt t i) F = some (t', pm') ∧ new.length ≤ 1 ∧
        Grew σ b r full F.user pm live new pm' ∧
        σ.scheme.descend (entry pm'.mem) r (i :: p) = some t' ∧
        (F.user = true → UserEntry (entry pm'.mem t i)) := by
    intro pm' new he hlen hg hpres huser
    have hd : σ.scheme.descend (entry pm'.mem) r (i :: p) = some (addr (entry pm'.mem t i)) := by
      rw [Scheme.descend_cons]
      exact ⟨t, hg.along.mono hr hp.tail ht, by rw [child_eq, hpres]; rfl⟩
    obtain ⟨q, hq, _, hle⟩ := hg.tables.ledger.live_spec (hg.tables.held ⟨r, i :: p, hr, hp, hd⟩)
    obtain ⟨L, hI⟩ := h.ledger.inv
    have hsmall := hI.links.small
    have hlen' := h.ledger.length
    obtain ⟨virt, hvirt⟩ := physToVirt_of_lt (show addr (entry pm'.mem t i) < 2 ^ 47 by
      simp only at hlen' hsmall
      rw [hq]
      unfold PAGE_SIZE
      omega)
    refine ⟨_, pm', new, ?_, hlen, hg, hd, huser⟩
    rw [entry] at hvirt
    simp only [getOrCreateTable, he, Option.bind_eq_bind, Option.bind_some, hvirt, Option.map_some,
      entry]
  cases hpres : isPresent (entry pm.mem t i) with
  | true =>
    have hself := entry_addFlags_self pm.mem t i F
    have he : ensureTable pm (entryAt t i) F = some
        { pm with mem := pm.mem.store (entryAt t i) (addFlags (entry pm.mem t i) F) } := by
      rw [ensureTable, if_neg]
      · rfl
      · rw [Bool.not_eq_true', Bool.not_eq_false]
        exact hpres
    rw [isPresent_eq] at hpres
    refine Or.inr (finish _ [] he (by simp)
      (addFlags_spec h hr hp ht hfull hF (by rw [isPresent_eq]; exact hpres)) ?_ fun hu => ?_)
    · simp only
      rw [hself, isPresent_eq, flags_addFlags, EntryFlags.or_present, hpres, Bool.true_or]
    · simp only
      rw [hself, UserEntry, flags_addFlags, EntryFlags.or_present, EntryFlags.or_user, hpres, hu,
        Bool.true_or, Bool.or_true]
      exact ⟨rfl, rfl⟩
  | false =>
    have hens : ensureTable pm (entryAt t i) F = createTable pm (entryAt t i) F := by
      rw [ensureTable, if_pos]
      rw [Bool.not_eq_true']
      exact hpres
    rcases createTable_spec h hr hp ht hfull hF hFp hpres with ⟨he, hf⟩ | ⟨f, pm', he, hg, hent, _⟩
    · refine Or.inl ⟨?_, hf⟩
      rw [getOrCreateTable, hens, he]
      rfl
    · refine Or.inr (finish pm' [(f, 0)] (hens.trans he) (by simp) hg ?_ fun hu => ?_)
      · rw [hent, isPresent_eq, flags_setAddr, hFp]
      · rw [hent, UserEntry, flags_setAddr]
        exact ⟨hFp, hu⟩

theorem getOrCreateTable_grew (h : Tables σ b live pm) (hr : σ.root r)
    (hp : σ.scheme.Path (i :: p)) (ht : σ.scheme.descend (entry pm.mem) r p = some t)
    (he : getOrCreateTable pm (entryAt t i) (tableFlags F) = some (t', pm')) :
    ∃ new, Grew σ b r (i :: p) (tableFlags F).user pm live new pm' ∧
      σ.scheme.descend (entry pm'.mem) r (i :: p) = some t' := by
  obtain ⟨hF, hFp, _⟩ := tableFlags_spec F
  rcases getOrCreateTable_spec h hr hp ht List.suffix_rfl hF hFp with
    ⟨hn, _⟩ | ⟨t₁, pm₁, new, hs, _, hg, hd, _⟩
  · rw [he] at hn
    simp at hn
  · obtain ⟨rfl, rfl⟩ := Prod.mk.inj (Option.some.inj (he.symm.trans hs))
    exact ⟨new, hg, hd⟩

/-! ### The last entry -/

theorem writeEntry_spec (h : Tables σ b live pm) (hr : σ.root r) (hp : σ.scheme.Path p)
    (hlen : p.length = 3) (ht : σ.scheme.descend (entry pm.mem) r p = some t)
    (hj : j < TABLE_ENTRIES) (v : Nat) :
    Grew σ b r (j :: p) user pm live [] { pm with mem := pm.mem.store (entryAt t j) v } := by
  have hreach : σ.scheme.Reached σ.root (entry pm.mem) t := ⟨r, p, hr, hp, ht⟩
  have hsame := h.sameBut hreach hj v
  have hkeep : p.length < σ.scheme.depth → σ.scheme.child
      (entry (pm.mem.store (entryAt t j) v) t j) = σ.scheme.child (entry pm.mem t j) := by
    intro hlt
    rw [hlen] at hlt
    exact absurd hlt (Nat.lt_irrefl 3)
  have hd : ∀ {r' q}, σ.root r' → σ.scheme.Path q → σ.scheme.descend _ r' q = _ :=
    fun hr' hq => hsame.descend_eq h.tree hr hp ht hkeep hr' hq
  -- the table is a last one, so no entry above the last level is in it
  have hupper : ∀ {r' q u k}, σ.root r' → σ.scheme.Path (k :: q) →
      σ.scheme.descend (entry pm.mem) r' q = some u →
      entry (pm.mem.store (entryAt t j) v) u k = entry pm.mem u k := by
    intro r' q u k hr' hq hu
    refine hsame ⟨r', q, hr', hq.tail, hu⟩ hq.head_lt ?_
    rintro rfl
    obtain ⟨rfl, _⟩ := h.tree hr hr' hp hq.tail ht hu
    have hle : p.length + 1 ≤ 3 := hq.le
    omega
  refine ⟨⟨h.ledger, hsame.tree h.tree hr hp ht hkeep, ?_, ?_⟩,
    hsame.along h.tree hr hp ht hkeep List.suffix_rfl, ?_, ?_, ?_, rfl⟩
  · rintro u ⟨r', q, hr', hq, hu⟩
    rw [hd hr' hq] at hu
    exact h.held ⟨r', q, hr', hq, hu⟩
  · intro r' q k u hr' hq hu hpk
    rw [hd hr' hq.tail] at hu
    rw [hupper hr' hq hu] at hpk ⊢
    exact h.good hr' hq hu hpk
  · intro r' q u k hr' hq hu huser
    rw [hupper hr' hq hu]
    exact huser
  · intro _ r' q u k hr' hq hu huser
    rw [hupper hr' hq hu] at huser
    exact huser
  · rintro u ⟨r', q, hr', hq, hu⟩
    rw [hd hr' hq] at hu
    exact Or.inl ⟨r', q, hr', hq, hu⟩

/-! ### The whole call -/

theorem path_indices (virt : Nat) : σ.scheme.Path [index virt 21, index virt 30, index virt 39] := by
  refine ⟨fun i hi => ?_, Nat.le_refl 3⟩
  simp only [List.mem_cons, List.not_mem_nil, or_false] at hi
  rcases hi with rfl | rfl | rfl <;> exact index_lt _ _

/-- **What `map` does.**  It panics only when the allocator has no three frames left.
Otherwise the tree grows along the way of the address, whose last entry is the one written;
a mapping for user code lets it pass at every level. -/
theorem map_spec (h : Tables σ b live pm) (hr : σ.root r) (virt phys : Nat) (F : EntryFlags) :
    (map pm r virt phys F = none ∧ pm.buddy.takeFrames 3 = none) ∨
    ∃ pm' new pt, map pm r virt phys F = some pm' ∧ new.length ≤ 3 ∧
      Grew σ b r (indices virt) F.user pm live new pm' ∧
      σ.scheme.descend (entry pm'.mem) r (indices virt).tail = some pt ∧
      entry pm'.mem pt (index virt 12) = setAddr phys (F ||| EntryFlags.PRESENT) ∧
      (F.user = true → σ.scheme.AllOn UserEntry (entry pm'.mem) r (indices virt).tail) := by
  obtain ⟨hF, hFp, hFu⟩ := tableFlags_spec F
  have hp3 := path_indices (σ := σ) virt
  have hp2 := hp3.tail
  have hp1 := hp2.tail
  have hs3 : [index virt 21, index virt 30, index virt 39] <:+ indices virt := List.suffix_cons _ _
  have hs2 : [index virt 30, index virt 39] <:+ indices virt := (List.suffix_cons _ _).trans hs3
  have hs1 : [index virt 39] <:+ indices virt := (List.suffix_cons _ _).trans hs2
  have fail : ∀ {n : Nat} {a : BuddyAllocator}, pm.buddy.takeFrames n = some a → n ≤ 2 →
      a.takeFrames 1 = none → pm.buddy.takeFrames 3 = none := by
    intro n a hn hle h1
    refine takeFrames_none (n := n + 1) ?_ (by omega)
    rw [takeFrames_add, hn]
    exact h1
  -- the three tables above the last entry, one after the other
  rcases getOrCreateTable_spec h hr hp1 rfl hs1 hF hFp with
    ⟨e₁, hf⟩ | ⟨pdpt, pm₁, new₁, e₁, hl₁, hg₁, hd₁, hu₁⟩
  · exact Or.inl ⟨by rw [map, e₁]; rfl, fail (n := 0) rfl (by omega) hf⟩
  rcases getOrCreateTable_spec hg₁.tables hr hp2 hd₁ hs2 hF hFp with
    ⟨e₂, hf⟩ | ⟨pd, pm₂, new₂, e₂, hl₂, hg₂, hd₂, hu₂⟩
  · exact Or.inl ⟨by simp only [map, e₁, e₂, Option.bind_eq_bind, Option.bind_some, Option.bind_none],
      fail hg₁.taken (by omega) hf⟩
  have hg₁₂ := hg₁.trans hg₂
  have hl₁₂ : (new₂ ++ new₁).length ≤ 2 := by rw [List.length_append]; omega
  rcases getOrCreateTable_spec hg₂.tables hr hp3 hd₂ hs3 hF hFp with
    ⟨e₃, hf⟩ | ⟨pt, pm₃, new₃, e₃, hl₃, hg₃, hd₃, hu₃⟩
  · exact Or.inl ⟨by simp only [map, e₁, e₂, e₃, Option.bind_eq_bind, Option.bind_some,
      Option.bind_none], fail hg₁₂.taken hl₁₂ hf⟩
  have hg₁₂₃ := hg₁₂.trans (by rw [List.append_assoc]; exact hg₃)
  have hw : Grew σ b r (indices virt) F.user pm₃ _ [] _ := writeEntry_spec hg₁₂₃.tables hr hp3 rfl
    hd₃ (index_lt virt 12) (setAddr phys (F ||| EntryFlags.PRESENT))
  rw [hFu] at hg₁₂₃
  have hlast : Grew σ b r (indices virt) F.user pm live _ _ := hg₁₂₃.trans hw
  refine Or.inr ⟨_, _, pt, by simp only [map, e₁, e₂, e₃, Option.bind_eq_bind, Option.bind_some]; rfl,
    ?_, hlast, hw.along.mono hr hp3 hd₃, ?_, fun hu => ?_⟩
  · simp only [List.length_append, List.nil_append] at *
    omega
  · exact entry_store_self _ _ _ (setAddr_lt _ _)
  · rw [← hFu] at hu
    refine hw.allOn hr hp3 ⟨hg₃.allOn hr hp2 ⟨hg₂.allOn hr hp1 ⟨trivial, _, rfl, hu₁ hu⟩, ?_⟩, ?_⟩
    · exact ⟨pdpt, hg₂.along.mono hr hp1 hd₁, hu₂ hu⟩
    · exact ⟨pd, hg₃.along.mono hr hp2 hd₂, hu₃ hu⟩

end Mapper

end Zeronix
