import Zeronix.Mem.AddressSpaces

/-!
# The bytes of data

`Spaces.write` says that writing data changes no page table.  The other way round, mapping a page
writes to tables and to fresh frames only, so that the bytes of every block that is held for
something else stay as they are (`Spaces.mapAll_bytes`).
-/

namespace Zeronix

open Radix BuddyAllocator Session

theorem Session.Ledger.off_frame {a b : BuddyAllocator} {live : List (Nat × Nat)} {f x : Nat}
    {blk : Nat × Nat} (h : Ledger b { allocator := a, live := live }) (hf : (f, 0) ∈ live)
    (hblk : blk ∈ live) (hin : InBlock blk.1 blk.2 (x / PAGE_SIZE)) (hne : (f, 0) ≠ blk) :
    x < f ∨ f + PAGE_SIZE ≤ x := by
  obtain ⟨q, rfl, _⟩ := h.live_spec hf
  by_contra hn
  have hpage : InBlock (q * PAGE_SIZE) 0 (x / PAGE_SIZE) := by
    unfold InBlock PAGE_SIZE at *
    omega
  obtain ⟨h₁, h₂⟩ := h.live_unique hf hblk hpage hin
  exact hne (Prod.ext h₁ h₂)

namespace Mapper

open PageTableEntry

variable {σ : Space} {b : BuddyAllocator} {live new data : List (Nat × Nat)} {pm pm' : PhysMem}
variable {r t t' i k u x virt phys : Nat} {p R : List Nat} {F : EntryFlags} {user : Bool}

/-- The byte `x` is in a block that is held, and not as a table. -/
def Aside (σ : Space) (live : List (Nat × Nat)) (m : Memory) (x : Nat) : Prop :=
  ∃ blk ∈ live, InBlock blk.1 blk.2 (x / PAGE_SIZE) ∧
    ∀ {t}, σ.scheme.Reached σ.root (entry m) t → (t, 0) ≠ blk

theorem Aside.off_table (hx : Aside σ live pm.mem x) (h : Tables σ b live pm)
    (ht : σ.scheme.Reached σ.root (entry pm.mem) t) : x < t ∨ t + PAGE_SIZE ≤ x := by
  obtain ⟨blk, hblk, hin, hne⟩ := hx
  exact h.ledger.off_frame (h.held ht) hblk hin (hne ht)

theorem Aside.grew {full : List Nat} (hx : Aside σ live pm.mem x)
    (hg : Grew σ b r full user pm live new pm') : Aside σ (new ++ live) pm'.mem x := by
  obtain ⟨blk, hblk, hin, hne⟩ := hx
  refine ⟨blk, List.mem_append_right _ hblk, hin, fun ht heq => ?_⟩
  rcases hg.reached ht with ht | hnew
  · exact hne ht heq
  · exact (List.nodup_append.mp hg.tables.ledger.nodup).2.2 _ hnew _ hblk heq

theorem Aside.store (hx : Aside σ live pm.mem x) (h : Tables σ b live pm)
    (ht : σ.scheme.Reached σ.root (entry pm.mem) t) (hi : i < TABLE_ENTRIES) (v : Nat) :
    (pm.mem.store (entryAt t i) v).bytes x = pm.mem.bytes x := by
  have hoff := hx.off_table h ht
  unfold TABLE_ENTRIES at hi
  unfold PAGE_SIZE at hoff
  refine if_neg ?_
  unfold entryAt
  omega

theorem Aside.createTable (hx : Aside σ live pm.mem x) (h : Tables σ b live pm)
    (ht : σ.scheme.Reached σ.root (entry pm.mem) t) (hi : i < TABLE_ENTRIES)
    (he : createTable pm (entryAt t i) F = some pm') : pm'.mem.bytes x = pm.mem.bytes x := by
  rcases takeFrame_cases h.ledger with ⟨hn, _⟩ | ⟨f, a, hs, _, _, hlow, _, hled⟩
  · rw [createTable_of_none hn] at he
    simp at he
  · obtain ⟨virt, hvirt⟩ := physToVirt_of_lt hlow
    rw [createTable_of_some hs hvirt] at he
    obtain rfl := Option.some.inj he
    have hstore := hx.store h ht hi (setAddr f F)
    obtain ⟨blk, hblk, hin, _⟩ := hx
    have hne : (f, 0) ≠ blk := by
      rintro rfl
      exact (List.nodup_cons.mp hled.nodup).1 hblk
    have hoff := hled.off_frame List.mem_cons_self (List.mem_cons_of_mem _ hblk) hin hne
    rw [← hstore]
    simp only [Memory.fill]
    rw [if_neg (by omega)]

theorem Aside.getOrCreateTable (hx : Aside σ live pm.mem x) (h : Tables σ b live pm)
    (hr : σ.root r) (hp : σ.scheme.Path (i :: p))
    (ht : σ.scheme.descend (entry pm.mem) r p = some t)
    (he : getOrCreateTable pm (entryAt t i) (tableFlags F) = some (t', pm')) :
    ∃ live', Tables σ b live' pm' ∧ Aside σ live' pm'.mem x ∧
      pm'.mem.bytes x = pm.mem.bytes x ∧
      σ.scheme.descend (entry pm'.mem) r (i :: p) = some t' := by
  have hreach : σ.scheme.Reached σ.root (entry pm.mem) t := ⟨r, p, hr, hp.tail, ht⟩
  have hbytes : pm'.mem.bytes x = pm.mem.bytes x := by
    simp only [Mapper.getOrCreateTable, Option.bind_eq_bind, Option.bind_eq_some_iff] at he
    obtain ⟨pm₁, hens, he⟩ := he
    obtain ⟨_, _, heq⟩ := Option.map_eq_some_iff.mp he
    obtain ⟨_, rfl⟩ := Prod.mk.inj heq
    unfold ensureTable at hens
    split at hens
    · exact hx.createTable h hreach hp.head_lt hens
    · obtain rfl := Option.some.inj hens
      exact hx.store h hreach hp.head_lt _
  obtain ⟨new, hg, hd⟩ := getOrCreateTable_grew h hr hp ht he
  exact ⟨_, hg.tables, hx.grew hg, hbytes, hd⟩

/-- **Mapping a page** writes no byte of data. -/
theorem Aside.map (hx : Aside σ live pm.mem x) (h : Tables σ b live pm) (hr : σ.root r)
    (he : Mapper.map pm r virt phys F = some pm') : pm'.mem.bytes x = pm.mem.bytes x := by
  have hp3 := path_indices (σ := σ) virt
  simp only [Mapper.map, Option.bind_eq_bind, Option.bind_eq_some_iff] at he
  obtain ⟨⟨pdpt, pm₁⟩, he₁, ⟨pd, pm₂⟩, he₂, ⟨pt, pm₃⟩, he₃, he⟩ := he
  obtain rfl := Option.some.inj he
  obtain ⟨_, h₁, hx₁, hb₁, hd₁⟩ := hx.getOrCreateTable h hr hp3.tail.tail rfl he₁
  obtain ⟨_, h₂, hx₂, hb₂, hd₂⟩ := hx₁.getOrCreateTable h₁ hr hp3.tail hd₁ he₂
  obtain ⟨_, h₃, hx₃, hb₃, hd₃⟩ := hx₂.getOrCreateTable h₂ hr hp3 hd₂ he₃
  have hb₄ := hx₃.store h₃ ⟨r, _, hr, hp3, hd₃⟩ (index_lt virt 12)
    (setAddr phys (F ||| EntryFlags.PRESENT))
  exact hb₄.trans (hb₃.trans (hb₂.trans hb₁))

/-! ### Runs -/

theorem Spaces.aside (h : Spaces k R data b live pm) (hx : InBlocks data x) :
    Aside (kernelSpace k R) live pm.mem x := by
  obtain ⟨blk, hm, hin⟩ := hx
  refine ⟨blk, h.held _ hm, hin, fun ht heq => ?_⟩
  exact h.apart ht (by rw [heq]; exact hm)

/-- **A run of `map` calls** on a user table writes no byte of data. -/
theorem Spaces.mapAll_bytes (hu : u ∈ R) (huk : u ≠ k) (hx : InBlocks data x) (calls : List Call) :
    ∀ {pm live}, Spaces k R data b live pm → Mapper.mapAll pm u calls = some pm' →
    pm'.mem.bytes x = pm.mem.bytes x := by
  induction calls with
  | nil =>
    intro pm live h he
    obtain rfl := Option.some.inj he
    rfl
  | cons c calls ih =>
    intro pm live h he
    obtain ⟨pm₁, hmap, he⟩ := Option.bind_eq_some_iff.mp he
    obtain ⟨_, _, h₁, _⟩ := h.map hu (Or.inl huk) hmap
    exact (ih h₁ he).trans ((h.aside hx).map h.tables hu hmap)

end Mapper

end Zeronix
