import Zeronix.Mem.KernelCalls

/-!
# Address spaces

The kernel's page table `k` and the user page tables stand over one set of tables: the upper
half of a user table holds the kernel's entries, so that what is below them is shared, and the
lower half is its own.  `Spaces` is what all of this keeps to at any time; `data` are the blocks
that were given out for anything but tables.

Three things happen to it.  Bytes of data blocks are written, which no walk notices
(`Spaces.write`); a page is mapped in a user table, which for an address of the lower half no
other walk notices (`Spaces.map`); and a user table is created, with the kernel's walks in its
upper half and none in the lower (`Spaces.create`).
-/

namespace Zeronix

open Radix BuddyAllocator Session

namespace Mapper

open PageTableEntry

/-- The roots of `R`, which share their upper halves. -/
def kernelSpace (k : Nat) (R : List Nat) : Space where
  base := k
  shared i := decide (256 ≤ i)
  root r := r ∈ R

structure Spaces (k : Nat) (R : List Nat) (data : List (Nat × Nat)) (b : BuddyAllocator)
    (live : List (Nat × Nat)) (pm : PhysMem) : Prop where
  tables : Tables (kernelSpace k R) b live pm
  covered : Covered (kernelSpace k R) pm.mem
  kernel : k ∈ R
  noUser : ∀ i < TABLE_ENTRIES, (flags (entry pm.mem k i)).user = false
  held : ∀ x ∈ data, x ∈ live
  nodup : data.Nodup
  apart : ∀ {t}, (kernelSpace k R).scheme.Reached (kernelSpace k R).root (entry pm.mem) t →
    (t, 0) ∉ data

/-- An address of the upper half. -/
def High (v : Nat) : Prop := 256 ≤ index v 39

instance (v : Nat) : Decidable (High v) := inferInstanceAs (Decidable (_ ≤ _))

variable {k u v virt phys : Nat} {R : List Nat} {data live new : List (Nat × Nat)}
variable {b : BuddyAllocator} {pm pm' : PhysMem} {F : EntryFlags} {m : Memory}

theorem indices_lt (v : Nat) : ∀ i ∈ indices v, i < TABLE_ENTRIES := by
  intro i hi
  simp only [indices, List.mem_cons, List.not_mem_nil, or_false] at hi
  rcases hi with rfl | rfl | rfl | rfl <;> exact index_lt _ _

theorem high_congr {v w : Nat} (h : pageBits v = pageBits w) : High v ↔ High w := by
  have hidx := (indices_eq_iff v w).mpr h
  simp only [indices, List.cons.injEq] at hidx
  rw [High, High, hidx.2.2.2.1]

/-! ### Data -/

theorem walk_of_same {σ : Space} (h : σ.scheme.Same σ.root (entry pm.mem) (entry m)) {r : Nat}
    (hr : σ.root r) : walk m r v = walk pm.mem r v := by
  have halong : σ.scheme.Along σ.root (entry pm.mem) 0 r [] (entry m) := h.along
  rw [walk_eq_trail σ, walk_eq_trail σ, halong.trail_eq hr (indices_lt v) (Nat.le_refl 4)]
  intro p hne _ hon
  exact hne (List.suffix_nil.mp hon.1)

theorem Spaces.congr (h : Spaces k R data b live pm)
    (hs : (kernelSpace k R).scheme.Same (kernelSpace k R).root (entry pm.mem) (entry m)) :
    Spaces k R data b live { pm with mem := m } where
  tables := by
    refine ⟨h.tables.ledger, ?_, fun ht => h.tables.held (hs.reached ht), ?_⟩
    · intro r r' p p' t hr hr' hp hp' ht ht'
      rw [hs.descend_eq hr hp] at ht
      rw [hs.descend_eq hr' hp'] at ht'
      exact h.tables.tree hr hr' hp hp' ht ht'
    · intro r p i t hr hp ht hpres
      rw [hs.descend_eq hr hp.tail] at ht
      rw [hs ⟨r, p, hr, hp.tail, ht⟩ hp.head_lt] at hpres ⊢
      exact h.tables.good hr hp ht hpres
  covered := by
    intro r p t j hr hp hlen hpriv ht hj huser
    rw [hs.descend_eq hr hp] at ht
    rw [hs ⟨r, p, hr, hp, ht⟩ hj] at huser
    refine Scheme.Along.allOn (hs.along (z := 0) (r := r)) hr (fun hq hd hu => ?_) hp
      (h.covered hr hp hlen hpriv ht hj huser)
    rw [hs ⟨r, _, hr, hq.tail, hd⟩ hq.head_lt]
    exact hu
  kernel := h.kernel
  noUser := by
    intro i hi
    have hk := hs (Scheme.Reached.of_root h.kernel) hi
    simp only
    rw [hk]
    exact h.noUser i hi
  held := h.held
  nodup := h.nodup
  apart := fun ht => h.apart (hs.reached ht)

theorem Spaces.same (h : Spaces k R data b live pm)
    (hm : ∀ x, ¬ InBlocks data x → m.bytes x = pm.mem.bytes x) :
    (kernelSpace k R).scheme.Same (kernelSpace k R).root (entry pm.mem) (entry m) := by
  intro t j ht hj
  have hlive := h.tables.held ht
  obtain ⟨q, rfl, _⟩ := h.tables.ledger.live_spec hlive
  refine Memory.readLE_congr fun x h1 h2 => hm x ?_
  rintro ⟨⟨a, o⟩, hblk, hin⟩
  have hpage : InBlock (q * PAGE_SIZE) 0 (x / PAGE_SIZE) := by
    have hj : j < 512 := hj
    unfold InBlock entryAt PAGE_SIZE at *
    omega
  obtain ⟨rfl, rfl⟩ := h.tables.ledger.live_unique hlive (h.held _ hblk) hpage hin
  exact h.apart ht hblk

/-- **Writing data changes no walk.** -/
theorem Spaces.write (h : Spaces k R data b live pm)
    (hm : ∀ x, ¬ InBlocks data x → m.bytes x = pm.mem.bytes x) :
    Spaces k R data b live { pm with mem := m } ∧
      ∀ r ∈ R, ∀ v, walk m r v = walk pm.mem r v :=
  ⟨h.congr (h.same hm), fun _ hr _ => walk_of_same (h.same hm) hr⟩

theorem Spaces.alloc (h : Spaces k R data b live pm) {order addr : Nat} {a : BuddyAllocator}
    (he : pm.buddy.allocate order = some (some addr, a)) :
    Spaces k R ((addr, order) :: data) b ((addr, order) :: live) { pm with buddy := a } := by
  rcases h.tables.ledger.allocateWhere order (fun _ => true) with hn | ⟨p, a', hs, _, hled⟩
  · have hn : pm.buddy.allocate order = _ := hn
    rw [he] at hn
    simp at hn
  · have hs : pm.buddy.allocate order = _ := hs
    rw [he] at hs
    simp only [Option.some.injEq, Prod.mk.injEq] at hs
    obtain ⟨rfl, rfl⟩ := hs
    have hfresh := (List.nodup_cons.mp hled.nodup).1
    refine ⟨⟨hled, h.tables.tree, fun ht => List.mem_cons_of_mem _ (h.tables.held ht), h.tables.good⟩,
      h.covered, h.kernel, h.noUser, ?_, ?_, ?_⟩
    · intro x hx
      rcases List.mem_cons.mp hx with rfl | hx
      · exact List.mem_cons_self
      · exact List.mem_cons_of_mem _ (h.held x hx)
    · exact List.nodup_cons.mpr ⟨fun hd => hfresh (h.held _ hd), h.nodup⟩
    · intro t ht hd
      rcases List.mem_cons.mp hd with heq | hd
      · exact hfresh (heq ▸ h.tables.held ht)
      · exact h.apart ht hd

theorem Spaces.alloc_none (h : Spaces k R data b live pm) {order : Nat} {a : BuddyAllocator}
    (he : pm.buddy.allocate order = some (none, a)) : a = pm.buddy := by
  rcases h.tables.ledger.allocateWhere order (fun _ => true) with hn | ⟨p, a', hs, _⟩
  · have hn : pm.buddy.allocate order = _ := hn
    rw [he] at hn
    exact (Prod.mk.inj (Option.some.inj hn)).2
  · have hs : pm.buddy.allocate order = _ := hs
    rw [he] at hs
    simp at hs

/-! ### Mapping -/

theorem getLast?_of_suffix {p : List Nat} (hne : p ≠ []) (hs : p <:+ indices v) :
    p.getLast? = some (index v 39) := by
  obtain ⟨l, hl⟩ := hs
  have hlast : (indices v).getLast? = some (index v 39) := rfl
  rwa [← hl, List.getLast?_append_of_ne_nil l hne] at hlast

theorem eq_of_on_low {r : Nat} {q : List Nat} (hlow : ¬ High virt)
    (hon : (kernelSpace k R).scheme.On u (indices virt) r q) : r = u := by
  obtain ⟨hs, ho⟩ := hon
  have hpriv : ∀ i, q.tail.getLast? = some i → (kernelSpace k R).shared i = false := by
    intro i hi
    have hne : q.tail ≠ [] := by
      rintro heq
      rw [heq] at hi
      simp at hi
    have htail := getLast?_of_suffix hne ((List.tail_suffix q).trans hs)
    rw [hi] at htail
    rw [Option.some.inj htail]
    exact decide_eq_false hlow
  rwa [Scheme.origin_of_getLast hpriv, Scheme.origin_of_getLast hpriv] at ho

/-- **A page mapped in the lower half of one table** is noticed by no walk of another table and
by no walk of an upper half. -/
theorem Grew.walk_other {user : Bool} {r : Nat}
    (hg : Grew (kernelSpace k R) b u (indices virt) user pm live new pm') (hlow : ¬ High virt)
    (hr : r ∈ R) (hoff : r ≠ u ∨ High v) : walk pm'.mem r v = walk pm.mem r v := by
  rw [walk_eq_trail (kernelSpace k R), walk_eq_trail (kernelSpace k R),
    hg.along.trail_eq hr (indices_lt v) (Nat.le_refl 4)]
  intro p hne hs hon
  have hv := getLast?_of_suffix hne hs
  have hvirt := getLast?_of_suffix hne hon.1
  have hidx : index v 39 = index virt 39 := Option.some.inj (hv.symm.trans hvirt)
  have hlow' : ¬ High v := by
    unfold High at *
    omega
  exact hoff.elim (fun h => h (eq_of_on_low hlow hon)) hlow'

/-- **Mapping a page** in a user table, or for the kernel alone in its own. -/
theorem Spaces.map (h : Spaces k R data b live pm) (hu : u ∈ R) (huk : u ≠ k ∨ F.user = false)
    (he : Mapper.map pm u virt phys F = some pm') :
    ∃ new pt, Spaces k R data b (new ++ live) pm' ∧
      Grew (kernelSpace k R) b u (indices virt) F.user pm live new pm' ∧
      (kernelSpace k R).scheme.descend (entry pm'.mem) u (indices virt).tail = some pt ∧
      entry pm'.mem pt (index virt 12) = setAddr phys (F ||| EntryFlags.PRESENT) ∧
      (F.user = true →
        (kernelSpace k R).scheme.AllOn UserEntry (entry pm'.mem) u (indices virt).tail) := by
  rcases map_spec h.tables hu virt phys F with ⟨hn, _⟩ | ⟨pm'', new, pt, hs, _, hg, hd, hlast, hall⟩
  · rw [he] at hn
    simp at hn
  · obtain rfl := Option.some.inj (he.symm.trans hs)
    have hcov : Covered (kernelSpace k R) pm'.mem := h.covered.map hg hd (F := F)
      (by rw [hlast, flags_setAddr, EntryFlags.or_user]; exact Bool.or_false _) hall
    refine ⟨new, pt, ⟨hg.tables, hcov, h.kernel, ?_, ?_, h.nodup, ?_⟩, hg, hd, hlast, hall⟩
    · intro i hi
      by_contra hne
      have hne : (flags (entry pm'.mem k i)).user = true := by simpa using hne
      have hpath : (kernelSpace k R).scheme.Path [i] := Scheme.Path.nil.cons hi (show 0 < 3 by omega)
      have hold := h.noUser i hi
      rcases huk with huk | hno
      · rw [hg.along.kept h.kernel .nil rfl hi fun hon => huk hon.2.symm, hold] at hne
        simp at hne
      · rw [hg.calm hno h.kernel hpath rfl hne] at hold
        simp at hold
    · exact fun x hx => List.mem_append_right new (h.held x hx)
    · intro t ht hdata
      rcases hg.reached ht with ht | hnew
      · exact h.apart ht hdata
      · exact (List.nodup_append.mp hg.tables.ledger.nodup).2.2 _ hnew _ (h.held _ hdata) rfl

/-- **A run of `map` calls** on one user table. -/
theorem Spaces.mapAll {R : List Nat} (hu : u ∈ R) (huk : u ≠ k) (calls : List Call) :
    ∀ {pm live}, Spaces k R data b live pm → mapAll pm u calls = some pm' →
    ∃ new, Spaces k R data b (new ++ live) pm' ∧
      (∀ v, (kernelSpace k R).scheme.leaf 0 (entry pm'.mem) u (indices v) =
        ((lastCall calls v).map Call.entry).getD
          ((kernelSpace k R).scheme.leaf 0 (entry pm.mem) u (indices v))) ∧
      ((∀ c ∈ calls, ¬ High c.virt) → ∀ r ∈ R, ∀ v, r ≠ u ∨ High v →
        walk pm'.mem r v = walk pm.mem r v) := by
  induction calls with
  | nil =>
    intro pm live h he
    obtain rfl := Option.some.inj he
    exact ⟨[], h, fun _ => rfl, fun _ _ _ _ _ => rfl⟩
  | cons c calls ih =>
    intro pm live h he
    have hcons : Mapper.mapAll pm u (c :: calls) =
        (Mapper.map pm u c.virt c.phys c.flags).bind fun pm => Mapper.mapAll pm u calls :=
      List.foldlM_cons
    rw [hcons, Option.bind_eq_some_iff] at he
    obtain ⟨pm₁, hmap, he⟩ := he
    obtain ⟨new₁, pt, h₁, hg, hd, hlast, _⟩ := h.map hu (Or.inl huk) hmap
    obtain ⟨new₂, h₂, hleaf, hwalk⟩ := ih h₁ he
    refine ⟨new₂ ++ new₁, by rw [List.append_assoc]; exact h₂, fun v => ?_,
      fun hlow r hr v hoff => ?_⟩
    · rw [hleaf v, lastCall_cons, hg.leaf_eq hu hd v, hlast, Call.entry_or]
    · rw [hwalk (fun c hc => hlow c (List.mem_cons_of_mem _ hc)) r hr v hoff,
        hg.walk_other (hlow c List.mem_cons_self) hr hoff]

/-! ### A new user table -/

theorem entry_copyHalf_ne (m : Memory) (hu : PAGE_SIZE ∣ u) {t j : Nat} (ht : PAGE_SIZE ∣ t)
    (hne : t ≠ u) (hj : j < TABLE_ENTRIES) : ∀ n ≤ 256,
    entry (Page.copyHalf m k u n) t j = entry m t j := by
  intro n
  induction n with
  | zero => intro _; rfl
  | succ n ih =>
    intro hn
    rw [Page.copyHalf, entry_store_ne _ _ hu ht (by unfold TABLE_ENTRIES; omega) hj
      (fun heq => absurd heq hne), ih (by omega)]

theorem entry_copyHalf_self (m : Memory) (hk : PAGE_SIZE ∣ k) (hu : PAGE_SIZE ∣ u) (hne : k ≠ u)
    {j : Nat} (hj : j < TABLE_ENTRIES) : ∀ n ≤ 256, entry (Page.copyHalf m k u n) u j =
      if 256 ≤ j ∧ j < 256 + n then entry m k j else entry m u j := by
  intro n
  induction n with
  | zero =>
    intro _
    rw [if_neg (by omega)]
    rfl
  | succ n ih =>
    intro hn
    have hlt : 256 + n < TABLE_ENTRIES := by unfold TABLE_ENTRIES; omega
    rw [Page.copyHalf]
    by_cases heq : j = 256 + n
    · have hself := entry_store_self (Page.copyHalf m k u n) u (256 + n)
        (v := entry (Page.copyHalf m k u n) k (256 + n)) (Memory.load_lt _ _)
      rw [heq, hself, if_pos (by omega), entry_copyHalf_ne m hu hk hne hlt n (by omega)]
    · rw [entry_store_ne _ _ hu hu hlt hj (fun _ => heq), ih (by omega)]
      by_cases hlt' : 256 ≤ j ∧ j < 256 + n
      · rw [if_pos hlt', if_pos (by omega)]
      · rw [if_neg hlt', if_neg (by omega)]

theorem allocPml4_spec {f : Nat} (h : Ledger b { allocator := pm.buddy, live := live })
    (he : Page.allocPml4 pm = some (f, pm')) :
    PAGE_SIZE ∣ f ∧ pm'.mem = pm.mem ∧
      Ledger b { allocator := pm'.buddy, live := (f, 0) :: live } := by
  unfold Page.allocPml4 at he
  rcases takeFrame_cases h with ⟨hn, _⟩ | ⟨f', a, hs, _, hfd, _, _, hled⟩
  · rw [hn] at he
    simp at he
  · rw [hs] at he
    simp only [Option.some.injEq, Prod.mk.injEq] at he
    obtain ⟨rfl, rfl⟩ := he
    exact ⟨hfd, rfl, hled⟩

theorem createUserPageTable_cases (h : Ledger b { allocator := pm.buddy, live := live })
    (he : Page.createUserPageTable pm k = some (u, pm')) :
    Ledger b { allocator := pm'.buddy, live := (u, 0) :: live } ∧ PAGE_SIZE ∣ u ∧
      pm'.mem = Page.copyHalf (pm.mem.fill u PAGE_SIZE 0) k u 256 := by
  unfold Page.createUserPageTable at he
  split at he
  · simp at he
  · simp only [Option.bind_eq_bind, Option.bind_eq_some_iff] at he
    obtain ⟨⟨frame, pm₁⟩, halloc, _, _, pm₂, hclear, he⟩ := he
    simp only [Option.pure_def, Option.some.injEq, Prod.mk.injEq] at he
    obtain ⟨rfl, rfl⟩ := he
    obtain ⟨_, _, rfl⟩ := Option.map_eq_some_iff.mp hclear
    obtain ⟨hfd, hmem, hled⟩ := allocPml4_spec h halloc
    refine ⟨hled, hfd, ?_⟩
    simp only [hmem]

/-- What `create_user_page_table` leaves: the entries of the old tables stay, and those of the new
table are the kernel's in the upper half and blank below. -/
structure Created (k u : Nat) (R : List Nat) (pm pm' : PhysMem) : Prop where
  same : (kernelSpace k R).scheme.Same (kernelSpace k R).root (entry pm.mem) (entry pm'.mem)
  fresh : ∀ {t}, (kernelSpace k R).scheme.Reached (kernelSpace k R).root (entry pm.mem) t → t ≠ u
  low : ∀ i < 256, entry pm'.mem u i = 0
  high : ∀ i < TABLE_ENTRIES, 256 ≤ i → entry pm'.mem u i = entry pm'.mem k i

theorem Spaces.created (h : Spaces k R data b live pm)
    (he : Page.createUserPageTable pm k = some (u, pm')) : Created k u R pm pm' := by
  obtain ⟨hled, hud, hmem⟩ := createUserPageTable_cases h.tables.ledger he
  have hfresh := (List.nodup_cons.mp hled.nodup).1
  have hne : ∀ {t}, (kernelSpace k R).scheme.Reached (kernelSpace k R).root (entry pm.mem) t →
      t ≠ u := by
    rintro t ht rfl
    exact hfresh (h.tables.held ht)
  have hkr : (kernelSpace k R).scheme.Reached (kernelSpace k R).root (entry pm.mem) k :=
    .of_root h.kernel
  have hkd := h.tables.dvd hkr
  have hsame : (kernelSpace k R).scheme.Same (kernelSpace k R).root (entry pm.mem) (entry pm'.mem) := by
    intro t j ht hj
    rw [hmem, entry_copyHalf_ne _ hud (h.tables.dvd ht) (hne ht) hj 256 (le_refl _),
      entry_fill_ne _ hud (h.tables.dvd ht) hj (hne ht)]
  refine ⟨hsame, hne, fun i hi => ?_, fun i hi hge => ?_⟩
  · rw [hmem, entry_copyHalf_self _ hkd hud (hne hkr) (by unfold TABLE_ENTRIES; omega) 256 (le_refl _),
      if_neg (by omega), entry_fill_self _ _ (by unfold TABLE_ENTRIES; omega)]
  · rw [hsame hkr hi, hmem, entry_copyHalf_self _ hkd hud (hne hkr) hi 256 (le_refl _),
      if_pos ⟨hge, hi⟩, entry_fill_ne _ hud hkd hi (hne hkr)]

theorem Created.descend_low (h : Created k u R pm pm') {p : List Nat} {i : Nat}
    (hp : p.getLast? = some i) (hi : i < 256) :
    (kernelSpace k R).scheme.descend (entry pm'.mem) u p = none := by
  refine Scheme.descend_none_of_getLast ?_ hp
  rw [h.low i hi]
  exact child_zero

/-- **Every place of the new tree** is the new root or a place of the old tree. -/
theorem Created.place (h : Created k u R pm pm') (hk : k ∈ R) {r t : Nat} {p : List Nat}
    (hr : r ∈ u :: R) (hp : (kernelSpace k R).scheme.Path p)
    (ht : (kernelSpace k R).scheme.descend (entry pm'.mem) r p = some t) :
    (r = u ∧ p = [] ∧ t = u) ∨ ∃ r₀ ∈ R, (kernelSpace k R).scheme.descend (entry pm.mem) r₀ p = some t ∧
      (kernelSpace k R).scheme.origin r p = (kernelSpace k R).scheme.origin r₀ p ∧
      ((kernelSpace k R).Private p → r ∈ R ∧ r₀ = r) := by
  rcases List.mem_cons.mp hr with rfl | hr
  · cases hlast : p.getLast? with
    | none =>
      obtain rfl := List.getLast?_eq_none_iff.mp hlast
      exact Or.inl ⟨rfl, rfl, (Option.some.inj ht).symm⟩
    | some i =>
      have hi : i < TABLE_ENTRIES := hp.lt i (List.mem_of_getLast? hlast)
      rcases Nat.lt_or_ge i 256 with hi' | hi'
      · rw [h.descend_low hlast hi'] at ht
        simp at ht
      · rw [Scheme.descend_of_getLast (h.high i hi hi') hlast, h.same.descend_eq hk hp] at ht
        have hsh : (kernelSpace k R).shared i = true := decide_eq_true hi'
        refine Or.inr ⟨k, hk, ht, ?_, fun hpriv => ?_⟩
        · rw [Scheme.origin_of_shared hlast hsh, Scheme.origin_of_shared hlast hsh]
        · rw [hpriv i hlast] at hsh
          simp at hsh
  · rw [h.same.descend_eq hr hp] at ht
    exact Or.inr ⟨r, hr, ht, rfl, fun _ => ⟨hr, rfl⟩⟩

/-- **A new user table** shows the kernel's mappings in its upper half and nothing below. -/
theorem Spaces.create (h : Spaces k R data b live pm)
    (he : Page.createUserPageTable pm k = some (u, pm')) :
    u ∉ R ∧ Spaces k (u :: R) data b ((u, 0) :: live) pm' ∧
      (∀ r ∈ R, ∀ v, walk pm'.mem r v = walk pm.mem r v) ∧
      (∀ v, High v → walk pm'.mem u v = walk pm'.mem k v) ∧
      ∀ v, ¬ High v → (kernelSpace k (u :: R)).scheme.leaf 0 (entry pm'.mem) u (indices v) = 0 := by
  obtain ⟨hled, _, _⟩ := createUserPageTable_cases h.tables.ledger he
  have hfresh := (List.nodup_cons.mp hled.nodup).1
  have hcr := h.created he
  have hsame := hcr.same
  have hkr : (kernelSpace k R).scheme.Reached (kernelSpace k R).root (entry pm.mem) k :=
    .of_root h.kernel
  have hplace : ∀ {r p t}, r ∈ u :: R → (kernelSpace k R).scheme.Path p →
      (kernelSpace k R).scheme.descend (entry pm'.mem) r p = some t → _ :=
    fun hr hp ht => hcr.place h.kernel hr hp ht
  have hold : ∀ {t}, (kernelSpace k (u :: R)).scheme.Reached (kernelSpace k (u :: R)).root
      (entry pm'.mem) t → t = u ∨
        (kernelSpace k R).scheme.Reached (kernelSpace k R).root (entry pm.mem) t := by
    rintro t ⟨r, p, hr, hp, ht⟩
    rcases hplace hr hp ht with ⟨_, _, rfl⟩ | ⟨r₀, hr₀, ht₀, _⟩
    · exact Or.inl rfl
    · exact Or.inr ⟨r₀, p, hr₀, hp, ht₀⟩
  refine ⟨fun hmem => hcr.fresh (.of_root hmem) rfl, ⟨⟨hled, ?_, ?_, ?_⟩, ?_, List.mem_cons_of_mem _ h.kernel,
    ?_, fun x hx => List.mem_cons_of_mem _ (h.held x hx), h.nodup, ?_⟩, fun r hr v => ?_,
    fun v hv => ?_, fun v hv => ?_⟩
  · intro r r' p p' t hr hr' hp hp' ht ht'
    rcases hplace hr hp ht with ⟨rfl, rfl, rfl⟩ | ⟨r₀, hr₀, ht₀, ho, _⟩
    · rcases hplace hr' hp' ht' with ⟨rfl, rfl, _⟩ | ⟨r₁, hr₁, ht₁, _⟩
      · exact ⟨rfl, rfl⟩
      · exact absurd rfl (hcr.fresh ⟨r₁, p', hr₁, hp', ht₁⟩)
    · rcases hplace hr' hp' ht' with ⟨_, _, rfl⟩ | ⟨r₁, hr₁, ht₁, ho', _⟩
      · exact absurd rfl (hcr.fresh ⟨r₀, p, hr₀, hp, ht₀⟩)
      · obtain ⟨hpp, ho₀⟩ := h.tables.tree hr₀ hr₁ hp hp' ht₀ ht₁
        exact ⟨hpp, ho.trans (ho₀.trans ho'.symm)⟩
  · intro t ht
    rcases hold ht with rfl | ht
    · exact List.mem_cons_self
    · exact List.mem_cons_of_mem _ (h.tables.held ht)
  · intro r p i t hr hp ht hpres
    rcases hplace hr hp.tail ht with ⟨rfl, rfl, rfl⟩ | ⟨r₀, hr₀, ht₀, _⟩
    · rcases Nat.lt_or_ge i 256 with hi | hi
      · rw [hcr.low i hi] at hpres
        simp [isPresent] at hpres
      · rw [hcr.high i hp.head_lt hi, hsame hkr hp.head_lt] at hpres ⊢
        exact h.tables.good h.kernel hp rfl hpres
    · rw [hsame ⟨r₀, p, hr₀, hp.tail, ht₀⟩ hp.head_lt] at hpres ⊢
      exact h.tables.good hr₀ hp ht₀ hpres
  · intro r p t j hr hp hlen hpriv ht hj huser
    rcases hplace hr hp ht with ⟨_, rfl, _⟩ | ⟨r₀, hr₀, ht₀, _, hown⟩
    · simp at hlen
    · obtain ⟨hr, rfl⟩ := hown hpriv
      rw [hsame ⟨r₀, p, hr, hp, ht₀⟩ hj] at huser
      refine Scheme.Along.allOn (hsame.along (z := 0) (r := r₀)) hr (fun hq hd hu => ?_) hp
        (h.covered hr hp hlen hpriv ht₀ hj huser)
      rw [hsame ⟨r₀, _, hr, hq.tail, hd⟩ hq.head_lt]
      exact hu
  · intro i hi
    rw [hsame hkr hi]
    exact h.noUser i hi
  · intro t ht hdata
    rcases hold ht with rfl | ht
    · exact hfresh (h.held _ hdata)
    · exact h.apart ht hdata
  · exact walk_of_same hsame hr
  · rw [walk_eq_trail (kernelSpace k R), walk_eq_trail (kernelSpace k R),
      Scheme.trail_of_getLast (hcr.high _ (index_lt v 39) hv) rfl]
  · have hd := hcr.descend_low (p := [index v 21, index v 30, index v 39]) rfl (Nat.lt_of_not_le hv)
    rw [indices, Scheme.leaf]
    rw [show (kernelSpace k (u :: R)).scheme = (kernelSpace k R).scheme from rfl, hd]
    rfl

/-! ### Lower and upper half -/

theorem Spaces.weaken {R' : List Nat} {data' : List (Nat × Nat)} (h : Spaces k R data b live pm)
    (hR : ∀ r ∈ R', r ∈ R) (hk : k ∈ R') (hdata : ∀ x ∈ data', x ∈ data) (hnd : data'.Nodup) :
    Spaces k R' data' b live pm := by
  have hreach : ∀ {t}, (kernelSpace k R').scheme.Reached (kernelSpace k R').root (entry pm.mem) t →
      (kernelSpace k R).scheme.Reached (kernelSpace k R).root (entry pm.mem) t := by
    rintro t ⟨r, p, hr, hp, ht⟩
    exact ⟨r, p, hR r hr, hp, ht⟩
  refine ⟨⟨h.tables.ledger, ?_, fun ht => h.tables.held (hreach ht), ?_⟩, ?_, hk, h.noUser,
    fun x hx => h.held x (hdata x hx), hnd, fun ht hx => h.apart (hreach ht) (hdata _ hx)⟩
  · intro r r' p p' t hr hr' hp hp' ht ht'
    exact h.tables.tree (hR r hr) (hR r' hr') hp hp' ht ht'
  · intro r p i t hr hp ht hpres
    exact h.tables.good (hR r hr) hp ht hpres
  · intro r p t j hr hp hlen hpriv ht hj huser
    exact h.covered (hR r hr) hp hlen hpriv ht hj huser

theorem map_of_mapIntoPageTable {virt phys : Nat} {F : EntryFlags}
    (h : Page.mapIntoPageTable pm u virt phys F = some pm') : map pm u virt phys F = some pm' := by
  obtain ⟨_, _, h⟩ := Option.bind_eq_some_iff.mp h
  exact h

theorem not_high_of_lt {v : Nat} (h : v < 2 ^ 47) : ¬ High v := by
  rw [High, index_eq]
  omega

/-- **A run of `map` calls on one user table**, seen by the walks of the lower half. -/
theorem Spaces.mapAll_low (h : Spaces k R data b live pm) (hu : u ∈ R) (huk : u ≠ k)
    {calls : List Call} (he : Mapper.mapAll pm u calls = some pm') :
    ∃ new, Spaces k R data b (new ++ live) pm' ∧
      (∀ v, ¬ High v → walk pm'.mem u v =
        ((lastCall calls v).map Call.translation).or (walk pm.mem u v)) ∧
      ((∀ c ∈ calls, ¬ High c.virt) → ∀ r ∈ R, ∀ v, r ≠ u ∨ High v →
        walk pm'.mem r v = walk pm.mem r v) := by
  obtain ⟨new, h', hleaf, hwalk⟩ := Spaces.mapAll hu huk calls h he
  refine ⟨new, h', fun v hv => ?_, hwalk⟩
  have hpriv : (kernelSpace k R).shared (index v 39) = false := decide_eq_false hv
  rw [walk_eq_ofLeaf h'.tables h'.covered hu hpriv, walk_eq_ofLeaf h.tables h.covered hu hpriv,
    hleaf v]
  cases lastCall calls v with
  | none => rfl
  | some c => exact ofLeaf_entry c

/-- **A run of `map` calls on one user table** shows nothing at other pages, in either half. -/
theorem Spaces.mapAll_blank (h : Spaces k R data b live pm) (hu : u ∈ R) (huk : u ≠ k)
    {calls : List Call} (he : Mapper.mapAll pm u calls = some pm') (hnone : lastCall calls v = none)
    (hwalk : walk pm.mem u v = none) : walk pm'.mem u v = none := by
  obtain ⟨new, h', hleaf, _⟩ := Spaces.mapAll hu huk calls h he
  rw [walk_eq_none_iff h.tables hu] at hwalk
  rw [walk_eq_none_iff h'.tables hu, hleaf v, hnone]
  exact hwalk

theorem Spaces.map_user (h : Spaces k R data b live pm) (hu : u ∈ R) (huk : u ≠ k)
    {virt phys : Nat} {F : EntryFlags} (hF : F.user = true)
    (he : Mapper.map pm u virt phys F = some pm') :
    walk pm'.mem u virt = some (Call.translation ⟨virt, phys, F⟩) := by
  obtain ⟨new, pt, h', hg, hd, hlast, hall⟩ := h.map hu (Or.inl huk) he
  have hp := path_indices (σ := kernelSpace k R) virt
  obtain ⟨l, hl⟩ := Scheme.exists_trail hd
  have htab := (Scheme.allOn_iff hl).mp (h'.tables.allOn hu hp hd)
  have huser := (Scheme.allOn_iff hl).mp (hall hF)
  have hopen : l.all (fun e => (PageTableEntry.flags e).user) = true :=
    List.all_eq_true.mpr fun e he => (huser e he).2
  rw [walk_eq_trail (kernelSpace k R), trail_indices hd hl, Option.bind_some, translate_tables htab,
    hlast, PageTableEntry.isPresent_eq, PageTableEntry.flags_setAddr, List.all_cons, hopen]
  simp [PageTableEntry.flags_setAddr, PageTableEntry.addr_setAddr, EntryFlags.PRESENT,
    Call.translation, hF]

theorem Spaces.kernel_walk (h : Spaces k R data b live pm) {v : Nat} {t : Translation}
    (ht : walk pm.mem k v = some t) : t.user = false := by
  rw [walk_eq_trail (kernelSpace k R), Option.bind_eq_some_iff] at ht
  obtain ⟨l, hl, ht⟩ := ht
  by_contra hn
  have huser : ∀ e ∈ l, (PageTableEntry.flags e).user = true := by
    cases l with
    | nil => simp [translate] at ht
    | cons pte tables =>
      rw [translate] at ht
      split at ht
      · obtain rfl := Option.some.inj ht
        simpa only [Bool.not_eq_false, List.all_eq_true] using hn
      · simp at ht
  -- the entry of the first level is among those of the way
  obtain ⟨⟨⟨⟨_, t₀, ht₀, hfirst⟩, _⟩, _⟩, _⟩ :=
    (Scheme.allOn_iff (P := fun e => (PageTableEntry.flags e).user = true) hl).mpr huser
  obtain rfl := Option.some.inj ht₀
  rw [h.noUser _ (index_lt v 39)] at hfirst
  simp at hfirst

/-! ### The kernel's page table -/

/-- The kernel's table alone. -/
def Alone (k : Nat) (b : BuddyAllocator) (pm : PhysMem) : Prop := ∃ live, Spaces k [k] [] b live pm

theorem Alone.map (h : Alone k b pm) (hF : F.user = false)
    (he : Mapper.map pm k virt phys F = some pm') : Alone k b pm' := by
  obtain ⟨live, h⟩ := h
  obtain ⟨new, _, h', _⟩ := h.map List.mem_cons_self (Or.inr hF) he
  exact ⟨_, h'⟩

theorem Alone.mapAll (calls : List Call) (hcalls : ∀ c ∈ calls, c.flags.user = false) : ∀ {pm},
    Alone k b pm → Mapper.mapAll pm k calls = some pm' → Alone k b pm' := by
  induction calls with
  | nil =>
    intro pm h he
    exact Option.some.inj he ▸ h
  | cons c calls ih =>
    intro pm h he
    obtain ⟨pm₁, hmap, he⟩ := Option.bind_eq_some_iff.mp he
    exact ih (fun c hc => hcalls c (List.mem_cons_of_mem _ hc))
      (h.map (hcalls c List.mem_cons_self) hmap) he

theorem initKernelPageTable_run {memMap : List MemoryArea} {l : BootLayout}
    (h : Ledger b { allocator := pm.buddy, live := live })
    (he : Page.initKernelPageTable pm memMap l = some (k, pm')) : ∃ pm₀,
      Ledger b { allocator := pm₀.buddy, live := (k, 0) :: live } ∧
      (∀ i < TABLE_ENTRIES, entry pm₀.mem k i = 0) ∧
      Mapper.mapAll pm₀ k (Page.kernelCalls memMap l) = some pm' := by
  simp only [Page.initKernelPageTable, Option.bind_eq_bind, Option.bind_eq_some_iff] at he
  obtain ⟨⟨frame, pm₁⟩, halloc, pm₂, hclear, pm₃, hmap, he⟩ := he
  obtain ⟨rfl, rfl⟩ := Prod.mk.inj (Option.some.inj he)
  obtain ⟨_, _, rfl⟩ := Option.map_eq_some_iff.mp hclear
  obtain ⟨_, _, hled⟩ := allocPml4_spec h halloc
  exact ⟨{ pm₁ with mem := pm₁.mem.fill frame PAGE_SIZE 0 }, hled,
    fun i hi => entry_fill_self _ _ hi, Page.mapKernel_eq hmap⟩

/-- **The kernel's page table** is closed to user code. -/
theorem initKernelPageTable_spec {memMap : List MemoryArea} {l : BootLayout}
    (h : Ledger b { allocator := pm.buddy, live := live })
    (he : Page.initKernelPageTable pm memMap l = some (k, pm')) : Alone k b pm' := by
  obtain ⟨pm₀, hled, hzero, hmap⟩ := initKernelPageTable_run h he
  obtain ⟨htab, hcov⟩ := tables_of_zero (σ := kernelSpace k [k])
    (fun hr => List.mem_singleton.mp hr) hled List.mem_cons_self hzero
  refine Alone.mapAll _ (fun c hc => (Page.kernelCalls_flags hc).1)
    ⟨_, htab, hcov, List.mem_cons_self, fun i hi => ?_, ?_, List.nodup_nil, ?_⟩ hmap
  · rw [hzero i hi]
    rfl
  · intro x hx
    simp at hx
  · intro t _ hx
    simp at hx

end Mapper

end Zeronix
