import Zeronix.Mem.PageTables

/-!
# The meaning of a page table

What the processor reads after a run of `map` calls.  On a way that belongs to one root alone
a walk gives exactly what its last entry says (`walk_eq_ofLeaf`), and the last entry is that of
the last call for the page (`mapAll_spec`).
-/

namespace Zeronix

open Radix BuddyAllocator Session

namespace Mapper

open PageTableEntry

variable {σ : Space} {b : BuddyAllocator} {live new : List (Nat × Nat)} {pm pm' : PhysMem}
variable {r r' pt j virt : Nat} {p q : List Nat} {F : EntryFlags} {user : Bool}

/-! ### The `USER` flag -/

/-- The way leaves its root by a step that is not shared. -/
def Space.Private (σ : Space) (p : List Nat) : Prop :=
  ∀ i, p.getLast? = some i → σ.shared i = false

/-- **A last entry with `USER` has it on every entry above**, on ways of one root alone. -/
def Covered (σ : Space) (m : Memory) : Prop :=
  ∀ ⦃r p t j⦄, σ.root r → σ.scheme.Path p → p.length = 3 → σ.Private p →
    σ.scheme.descend (entry m) r p = some t → j < TABLE_ENTRIES →
    (flags (entry m t j)).user = true → σ.scheme.AllOn UserEntry (entry m) r p

theorem eq_of_on {full : List Nat} (hq : σ.Private p) (hlen : p.length + 1 = full.length)
    (hon : σ.scheme.On r full r' (j :: p)) : j :: p = full ∧ r' = r := by
  obtain ⟨hs, ho⟩ := hon
  have horigin : ∀ r, σ.scheme.origin r p = r := fun r => Scheme.origin_of_getLast hq
  rw [List.tail_cons, horigin, horigin] at ho
  exact ⟨hs.eq_of_length hlen, ho⟩

theorem Covered.map (hc : Covered σ pm.mem) (hg : Grew σ b r (indices virt) user pm live new pm')
    (hd : σ.scheme.descend (entry pm'.mem) r (indices virt).tail = some pt)
    (hlast : (flags (entry pm'.mem pt (index virt 12))).user = F.user)
    (hF : F.user = true → σ.scheme.AllOn UserEntry (entry pm'.mem) r (indices virt).tail) :
    Covered σ pm'.mem := by
  intro r' p t j hr' hp hlen hpriv ht hj huser
  by_cases hon : σ.scheme.On r (indices virt) r' (j :: p)
  · obtain ⟨hfull, rfl⟩ := eq_of_on hpriv (by rw [hlen]; rfl) hon
    obtain ⟨rfl, rfl⟩ := List.cons.inj hfull
    obtain rfl := Option.some.inj (ht.symm.trans hd)
    exact hF (by rw [← hlast, huser])
  · rcases hg.along.fresh hr' hp ht with hold | ⟨_, _, hblank⟩
    · rw [hg.along.kept hr' hp hold hj hon] at huser
      exact hg.allOn hr' hp (hc hr' hp hlen hpriv hold hj huser)
    · rw [hblank j hj hon] at huser
      simp [flags, EntryFlags.fromBitsTruncate] at huser

/-! ### The walk -/

/-- What a last entry says by itself. -/
def ofLeaf (e : Nat) : Option Translation :=
  if isPresent e then
    some {
      frame := addr e
      user := (flags e).user
      writable := (flags e).writable
      nx := (flags e).nx }
  else none

theorem walk_eq_trail (σ : Space) (m : Memory) (r virt : Nat) :
    walk m r virt = (σ.scheme.trail (entry m) r (indices virt)).bind translate := by
  rw [walk]
  exact congrArg (fun l => l.bind translate) (Scheme.trail_congr rfl)

theorem Tables.allOn (h : Tables σ b live pm) (hr : σ.root r) (hp : σ.scheme.Path p)
    (hd : σ.scheme.descend (entry pm.mem) r p = some pt) :
    σ.scheme.AllOn TableEntry (entry pm.mem) r p := by
  refine Scheme.allOn_of_descend (fun hq ht hc => h.good hr hq ht ?_) hp hd
  by_contra hn
  rw [child_eq, if_neg hn] at hc
  simp at hc

theorem translate_tables {e : Nat} {l : List Nat} (hl : ∀ e' ∈ l, TableEntry e') :
    translate (e :: l) = if isPresent e then some {
      frame := addr e
      user := (e :: l).all fun e => (flags e).user
      writable := (flags e).writable
      nx := (flags e).nx } else none := by
  have hsmall : l.all (fun e => !(flags e).huge) = true := by
    rw [List.all_eq_true]
    intro e' he'
    rw [(hl e' he').small]
    rfl
  have hwrite : l.all (fun e => (flags e).writable) = true :=
    List.all_eq_true.mpr fun e' he' => (hl e' he').writable
  have hnx : l.any (fun e => (flags e).nx) = false := by
    rw [List.any_eq_false]
    intro e' he'
    rw [(hl e' he').exec]
    simp
  rw [translate, hsmall, List.all_cons, List.all_cons, List.any_cons, hwrite, hnx, Bool.and_true,
    Bool.and_true, Bool.or_false]

theorem trail_indices {m : Memory} {l : List Nat}
    (hd : σ.scheme.descend (entry m) r (indices virt).tail = some pt)
    (hl : σ.scheme.trail (entry m) r (indices virt).tail = some l) :
    σ.scheme.trail (entry m) r (indices virt) = some (entry m pt (index virt 12) :: l) := by
  rw [indices, List.tail_cons] at hd hl
  rw [indices, Scheme.trail, hd, hl]
  rfl

theorem leaf_indices (m : Memory) (hd : σ.scheme.descend (entry m) r (indices virt).tail = some pt) :
    σ.scheme.leaf 0 (entry m) r (indices virt) = entry m pt (index virt 12) := by
  rw [indices, List.tail_cons] at hd
  rw [indices, Scheme.leaf, hd]
  rfl

/-- **On a private way the permissions are those of the last entry.** -/
theorem walk_eq_ofLeaf (h : Tables σ b live pm) (hc : Covered σ pm.mem) (hr : σ.root r)
    (hpriv : σ.shared (index virt 39) = false) :
    walk pm.mem r virt = ofLeaf (σ.scheme.leaf 0 (entry pm.mem) r (indices virt)) := by
  have hp := path_indices (σ := σ) virt
  rw [walk_eq_trail σ]
  cases hd : σ.scheme.descend (entry pm.mem) r (indices virt).tail with
  | none =>
    rw [indices, List.tail_cons] at hd
    rw [indices, Scheme.trail, Scheme.leaf, hd]
    simp [ofLeaf, isPresent]
  | some pt =>
    obtain ⟨l, hl⟩ := Scheme.exists_trail hd
    have htab := (Scheme.allOn_iff hl).mp (h.allOn hr hp hd)
    rw [trail_indices hd hl, leaf_indices _ hd, Option.bind_some, translate_tables htab, ofLeaf]
    generalize he : entry pm.mem pt (index virt 12) = e
    have huser : ((flags e).user && l.all fun e => (flags e).user) = (flags e).user := by
      cases hu : (flags e).user with
      | false => rfl
      | true =>
        have hpriv' : σ.Private (indices virt).tail := by
          intro i hi
          rw [show i = index virt 39 by simpa [indices] using hi.symm]
          exact hpriv
        have hall := hc hr hp rfl hpriv' hd (index_lt virt 12) (by rw [he]; exact hu)
        have hall := (Scheme.allOn_iff hl).mp hall
        rw [Bool.true_and, List.all_eq_true]
        exact fun e' he' => (hall e' he').2
    rw [List.all_cons, huser]

theorem walk_eq_none_iff (h : Tables σ b live pm) (hr : σ.root r) : walk pm.mem r virt = none ↔
    isPresent (σ.scheme.leaf 0 (entry pm.mem) r (indices virt)) = false := by
  rw [walk_eq_trail σ]
  cases hd : σ.scheme.descend (entry pm.mem) r (indices virt).tail with
  | none =>
    rw [indices, List.tail_cons] at hd
    rw [indices, Scheme.trail, Scheme.leaf, hd]
    simp [isPresent]
  | some pt =>
    obtain ⟨l, hl⟩ := Scheme.exists_trail hd
    have htab := (Scheme.allOn_iff hl).mp (h.allOn hr (path_indices virt) hd)
    rw [trail_indices hd hl, leaf_indices _ hd, Option.bind_some, translate_tables htab]
    cases isPresent (entry pm.mem pt (index virt 12)) <;> simp

/-! ### Runs of `map` -/

/-- Bits 12 to 47 of an address. -/
def pageBits (virt : Nat) : Nat := virt / 2 ^ 12 % 2 ^ 36

/-- The last call for the page of `v`. -/
def lastCall (calls : List Call) (v : Nat) : Option Call :=
  calls.reverse.find? fun c => pageBits c.virt == pageBits v

theorem index_eq (virt shift : Nat) : index virt shift = virt / 2 ^ shift % 512 := by
  rw [index, Nat.shiftRight_eq_div_pow]
  exact Nat.and_two_pow_sub_one_eq_mod _ 9

theorem indices_eq_iff (v w : Nat) : indices v = indices w ↔ pageBits v = pageBits w := by
  simp only [indices, index_eq, pageBits, List.cons.injEq, and_true]
  omega

theorem lastCall_cons (c : Call) (calls : List Call) (v : Nat) : lastCall (c :: calls) v =
    (lastCall calls v).or (if pageBits c.virt = pageBits v then some c else none) := by
  rw [lastCall, List.reverse_cons, List.find?_append]
  congr 1
  by_cases h : pageBits c.virt = pageBits v <;> simp [h]

theorem lastCall_append (calls later : List Call) (v : Nat) :
    lastCall (calls ++ later) v = (lastCall later v).or (lastCall calls v) := by
  rw [lastCall, List.reverse_append, List.find?_append]
  rfl

theorem lastCall_eq_none {calls : List Call} {v : Nat} :
    lastCall calls v = none ↔ ∀ c ∈ calls, pageBits c.virt ≠ pageBits v := by
  rw [lastCall, List.find?_eq_none]
  simp

theorem lastCall_eq_some {calls : List Call} {v : Nat} {c : Call} (h : lastCall calls v = some c) :
    c ∈ calls ∧ pageBits c.virt = pageBits v :=
  ⟨List.mem_reverse.mp (List.mem_of_find?_eq_some h), by simpa using List.find?_some h⟩

theorem Grew.leaf_eq (hg : Grew σ b r (indices virt) user pm live new pm') (hr : σ.root r)
    (hd : σ.scheme.descend (entry pm'.mem) r (indices virt).tail = some pt) (v : Nat) :
    σ.scheme.leaf 0 (entry pm'.mem) r (indices v) =
      if pageBits virt = pageBits v then entry pm'.mem pt (index virt 12)
      else σ.scheme.leaf 0 (entry pm.mem) r (indices v) := by
  by_cases hv : pageBits virt = pageBits v
  · rw [if_pos hv, ← (indices_eq_iff _ _).mpr hv, leaf_indices _ hd]
  · rw [if_neg hv]
    refine hg.along.leaf_eq hr (path_indices v) (index_lt v 12) fun hon => hv ?_
    exact ((indices_eq_iff _ _).mp (hon.1.eq_of_length rfl)).symm

/-- The entry a call writes. -/
def Call.entry (c : Call) : Nat := setAddr c.phys (c.flags ||| EntryFlags.PRESENT)

/-- What a call lets the processor find. -/
def Call.translation (c : Call) : Translation where
  frame := c.phys &&& ADDR_MASK
  user := c.flags.user
  writable := c.flags.writable
  nx := c.flags.nx

theorem ofLeaf_entry (c : Call) : ofLeaf c.entry = some c.translation := by
  rw [Call.entry, ofLeaf, isPresent_eq, flags_setAddr,
    addr_setAddr]
  simp [EntryFlags.PRESENT, Call.translation]

theorem Call.entry_or (c : Call) (later : Option Call) (v e : Nat) :
    (later.map Call.entry).getD (if pageBits c.virt = pageBits v then
      setAddr c.phys (c.flags ||| EntryFlags.PRESENT) else e) =
    ((later.or (if pageBits c.virt = pageBits v then some c else none)).map Call.entry).getD e := by
  cases later with
  | some c' => rw [Option.some_or, Option.map_some, Option.getD_some, Option.getD_some]
  | none =>
    rw [Option.none_or, Option.map_none, Option.getD_none]
    split
    · rw [Option.map_some, Option.getD_some, Call.entry]
    · rw [Option.map_none, Option.getD_none]

/-- **What a run of `map` calls leaves**: for each page the entry of the last call for it. -/
theorem mapAll_spec (calls : List Call) : ∀ {pm : PhysMem} {live : List (Nat × Nat)},
    Tables σ b live pm → Covered σ pm.mem → σ.root r →
    (mapAll pm r calls = none ∧ pm.buddy.takeFrames (3 * calls.length) = none) ∨
    ∃ pm' new, mapAll pm r calls = some pm' ∧ Tables σ b (new ++ live) pm' ∧ Covered σ pm'.mem ∧
      pm.buddy.takeFrames new.length = some pm'.buddy ∧ new.length ≤ 3 * calls.length ∧
      ∀ v, σ.scheme.leaf 0 (entry pm'.mem) r (indices v) =
        ((lastCall calls v).map Call.entry).getD (σ.scheme.leaf 0 (entry pm.mem) r (indices v)) := by
  induction calls with
  | nil => exact fun h hc _ => Or.inr ⟨_, [], rfl, h, hc, rfl, Nat.le_refl _, fun v => rfl⟩
  | cons c calls ih =>
    intro pm live h hc hr
    have hcons : mapAll pm r (c :: calls) =
        (map pm r c.virt c.phys c.flags).bind fun pm => mapAll pm r calls := List.foldlM_cons
    rw [List.length_cons, hcons]
    rcases map_spec h hr c.virt c.phys c.flags with
      ⟨he, hf⟩ | ⟨pm₁, new₁, pt, he, hlen₁, hg, hd, hlast, hall⟩
    · exact Or.inl ⟨by rw [he]; rfl, takeFrames_none hf (by omega)⟩
    have hc₁ : Covered σ pm₁.mem := hc.map hg hd (F := c.flags)
      (by rw [hlast, flags_setAddr, EntryFlags.or_user]; exact Bool.or_false _) hall
    rw [he, Option.bind_some]
    rcases ih hg.tables hc₁ hr with ⟨he₂, hf⟩ | ⟨pm₂, new₂, he₂, ht₂, hc₂, htake, hlen₂, hleaf⟩
    · have hfail : pm.buddy.takeFrames (new₁.length + 3 * calls.length) = none := by
        rw [takeFrames_add, hg.taken, Option.bind_some]
        exact hf
      exact Or.inl ⟨he₂, takeFrames_none hfail (by omega)⟩
    · refine Or.inr ⟨pm₂, new₂ ++ new₁, he₂, by rw [List.append_assoc]; exact ht₂, hc₂, ?_, ?_,
        fun v => ?_⟩
      · rw [List.length_append, Nat.add_comm, takeFrames_add, hg.taken]
        exact htake
      · rw [List.length_append]
        omega
      · rw [hleaf v, lastCall_cons, hg.leaf_eq hr hd v, hlast, Call.entry_or]

/-! ### A page table of its own -/

/-- One root, nothing shared. -/
def Space.single (pml4 : Nat) : Space where
  base := pml4
  shared _ := false
  root r := r = pml4

theorem descend_of_zero {m : Memory} (hzero : ∀ i < TABLE_ENTRIES, entry m r i = 0)
    (hp : σ.scheme.Path p) : σ.scheme.descend (entry m) r p = if p = [] then some r else none := by
  induction p with
  | nil => rfl
  | cons i p ih =>
    rw [Scheme.descend, ih hp.tail, if_neg (List.cons_ne_nil i p)]
    by_cases hnil : p = []
    · rw [if_pos hnil, Option.bind_some, hzero i hp.head_lt, child_zero]
    · rw [if_neg hnil, Option.bind_none]

theorem tables_of_zero {m : Memory} {s : Session} {pml4 : Nat} (hroot : ∀ {r}, σ.root r → r = pml4)
    (hled : Ledger b s) (hlive : (pml4, 0) ∈ s.live)
    (hzero : ∀ i < TABLE_ENTRIES, entry m pml4 i = 0) :
    Tables σ b s.live { buddy := s.allocator, mem := m } ∧ Covered σ m := by
  have hd : ∀ {r p u}, σ.root r → σ.scheme.Path p →
      σ.scheme.descend (entry m) r p = some u → p = [] ∧ r = pml4 ∧ u = pml4 := by
    intro r p u hr hp hu
    obtain rfl := hroot hr
    rw [descend_of_zero hzero hp] at hu
    split at hu
    · rename_i hnil
      exact ⟨hnil, rfl, (Option.some.inj hu).symm⟩
    · simp at hu
  refine ⟨⟨hled, ?_, ?_, ?_⟩, ?_⟩
  · intro r r' p p' t hr hr' hp hp' ht ht'
    obtain ⟨rfl, rfl, rfl⟩ := hd hr hp ht
    obtain ⟨rfl, rfl, _⟩ := hd hr' hp' ht'
    exact ⟨rfl, rfl⟩
  · rintro t ⟨r, p, hr, hp, ht⟩
    obtain ⟨_, _, rfl⟩ := hd hr hp ht
    exact hlive
  · intro r p i t hr hp ht hpres
    obtain ⟨_, _, rfl⟩ := hd hr hp.tail ht
    rw [hzero i hp.head_lt] at hpres
    simp [isPresent] at hpres
  · intro r p t j hr hp hlen _ ht
    obtain ⟨rfl, _⟩ := hd hr hp ht
    simp at hlen

/-- **A run of `map` calls on a cleared page table**: the processor finds what the last call for
a page says. -/
theorem walk_of_mapAll {m : Memory} {s : Session} {pml4 : Nat} (hled : Ledger b s)
    (hlive : (pml4, 0) ∈ s.live) (hzero : ∀ i < TABLE_ENTRIES, entry m pml4 i = 0)
    (calls : List Call) :
    (mapAll { buddy := s.allocator, mem := m } pml4 calls = none ∧
      s.allocator.takeFrames (3 * calls.length) = none) ∨
    ∃ pm', mapAll { buddy := s.allocator, mem := m } pml4 calls = some pm' ∧
      ∀ v, walk pm'.mem pml4 v = (lastCall calls v).map Call.translation := by
  have hroot : (Space.single pml4).root pml4 := rfl
  obtain ⟨htab, hcov⟩ := tables_of_zero (σ := .single pml4) (fun hr => hr) hled hlive hzero
  rcases mapAll_spec calls htab hcov hroot with hf | ⟨pm', _, he, htab', hcov', _, _, hleaf⟩
  · exact Or.inl hf
  refine Or.inr ⟨pm', he, fun v => ?_⟩
  have hstart : (Space.single pml4).scheme.leaf 0 (entry m) pml4 (indices v) = 0 := by
    rw [indices, Scheme.leaf, descend_of_zero hzero (path_indices v), if_neg (by simp)]
    rfl
  rw [walk_eq_ofLeaf htab' hcov' hroot rfl, hleaf v, hstart]
  cases lastCall calls v with
  | none => simp [ofLeaf, isPresent]
  | some c => exact ofLeaf_entry c

/-- **The meaning of `map`.**  Take any run of `map` calls on a cleared page table, with frames
from a buddy allocator in use.  It panics only where the allocator has no frame left for a table.
Otherwise the processor finds at each address the frame of the last call for its page, with exactly
the permissions of that call, and nothing where there was no such call. -/
theorem map_semantics {metadata : List PageInfo} {memMap : List MemoryArea}
    {reserved : List (Nat × Nat)} {b : BuddyAllocator} {s : Session} {m : Memory} {pml4 : Nat}
    (hlen : metadata.length ≤ MAX_SUPPORTED_PAGES) (hareas : DisjointAreas memMap)
    (hnew : BuddyAllocator.new metadata memMap reserved = some b) (hrun : Reach b s)
    (hlive : (pml4, 0) ∈ s.live) (hzero : ∀ i < TABLE_ENTRIES, entry m pml4 i = 0)
    (calls : List Call) (hphys : ∀ c ∈ calls, c.phys < 2 ^ 52) :
    (mapAll { buddy := s.allocator, mem := m } pml4 calls = none ∧
      s.allocator.takeFrames (3 * calls.length) = none) ∨
    ∃ pm', mapAll { buddy := s.allocator, mem := m } pml4 calls = some pm' ∧
      ∀ v, walk pm'.mem pml4 v = (lastCall calls v).map fun c =>
        { frame := c.phys / PAGE_SIZE * PAGE_SIZE
          user := c.flags.user
          writable := c.flags.writable
          nx := c.flags.nx } := by
  have hled := hrun.ledger_of_new hlen hareas hnew
  rcases walk_of_mapAll hled hlive hzero calls with hf | ⟨pm', he, hwalk⟩
  · exact Or.inl hf
  refine Or.inr ⟨pm', he, fun v => ?_⟩
  rw [hwalk v]
  cases hlast : lastCall calls v with
  | none => rfl
  | some c =>
    rw [Option.map_some, Option.map_some, Call.translation,
      and_mask_eq (hphys c (lastCall_eq_some hlast).1)]
    rfl

/-- A user page and a supervisor page next to it, with one last table between them. -/
theorem map_semantics_two_pages : ∃ b s pm',
    BuddyAllocator.new (List.replicate 16 default) [⟨0x1000, 0x10000, 1⟩] [] = some b ∧
    Reach b s ∧ s.live = [(0x1000, 0)] ∧
    mapAll { buddy := s.allocator, mem := { bytes := fun _ => 0, stores := [] } } 0x1000
      [⟨0x401000, 0x6000, EntryFlags.WRITABLE ||| EntryFlags.NX⟩, ⟨0x400000, 0x5000, EntryFlags.USER⟩] =
        some pm' ∧
    walk pm'.mem 0x1000 0x400123 = some ⟨0x5000, true, false, false⟩ ∧
    walk pm'.mem 0x1000 0x401456 = some ⟨0x6000, false, true, true⟩ ∧
    walk pm'.mem 0x1000 0x402000 = none := by
  have hrun : ((BuddyAllocator.new (List.replicate 16 default) [⟨0x1000, 0x10000, 1⟩] []).bind
      fun b => (exec { allocator := b, live := [] } (.allocate 0)).bind fun s =>
        (s.allocator.takeFrames 6).map fun _ => s.live) = some [(0x1000, 0)] := by decide +kernel
  obtain ⟨b, hb, hrun⟩ := Option.bind_eq_some_iff.mp hrun
  obtain ⟨s, hs, hrun⟩ := Option.bind_eq_some_iff.mp hrun
  obtain ⟨a, htake, hlive⟩ := Option.map_eq_some_iff.mp hrun
  have hreach : Reach b s := .call (c := .allocate 0) .start trivial hs
  have hareas : DisjointAreas [⟨0x1000, 0x10000, 1⟩] := List.pairwise_singleton _ _
  have hzero : ∀ i < TABLE_ENTRIES,
      entry { bytes := fun _ => 0, stores := [] } 0x1000 i = 0 :=
    fun _ _ => Memory.readLE_zero fun _ _ _ => rfl
  rcases map_semantics (by decide) hareas hb hreach (by rw [hlive]; exact List.mem_cons_self) hzero
      [⟨0x401000, 0x6000, EntryFlags.WRITABLE ||| EntryFlags.NX⟩, ⟨0x400000, 0x5000, EntryFlags.USER⟩]
      (by decide) with ⟨_, hf⟩ | ⟨pm', he, hwalk⟩
  · exact absurd (htake.symm.trans hf) (by simp)
  · refine ⟨b, s, pm', hb, hreach, hlive, he, ?_, ?_, ?_⟩
    · exact (hwalk 0x400123).trans (by decide +kernel)
    · exact (hwalk 0x401456).trans (by decide +kernel)
    · exact (hwalk 0x402000).trans (by decide +kernel)

end Mapper

end Zeronix
