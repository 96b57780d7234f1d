import Zeronix.Mem.AddressSpaces

/-!
# The last entries

The entries of the last level point at pages.  `Lasts` says of all of them, in every page table
of a space, that they satisfy `P`.  Whatever happens to the tables writes such an entry in one
place only, at the end of `map`; above the last level entries are linked or gain flags, and new
tables are blank.  So a `P` that holds of zero and of the entries of all calls is never lost
(`Lasts.mapAll`), on the ways of one root as on those that several roots share.
-/

namespace Zeronix

open Radix BuddyAllocator Session

namespace Mapper

open PageTableEntry

variable {σ : Space} {b : BuddyAllocator} {live new data : List (Nat × Nat)} {pm pm' : PhysMem}
variable {r t t' i j k u virt phys : Nat} {p full R : List Nat} {F : EntryFlags} {user : Bool}
variable {P : Nat → Prop} {m m' : Memory}

/-- Every entry of every last table satisfies `P`. -/
def Lasts (σ : Space) (P : Nat → Prop) (m : Memory) : Prop :=
  ∀ ⦃r p t j⦄, σ.root r → σ.scheme.Path p → p.length = 3 →
    σ.scheme.descend (entry m) r p = some t → j < TABLE_ENTRIES → P (entry m t j)

/-! ### Changes outside the last tables -/

theorem Lasts.same (h : Lasts σ P m) (hs : σ.scheme.Same σ.root (entry m) (entry m')) :
    Lasts σ P m' := by
  intro r p t j hr hp hlen ht hj
  rw [hs.descend_eq hr hp] at ht
  rw [hs ⟨r, p, hr, hp, ht⟩ hj]
  exact h hr hp hlen ht hj

theorem Lasts.weaken {R' : List Nat} (h : Lasts (kernelSpace k R) P m) (hR : ∀ r ∈ R', r ∈ R) :
    Lasts (kernelSpace k R') P m :=
  fun r _ _ _ hr hp hlen ht hj => h (hR r hr) hp hlen ht hj

theorem Lasts.create (h : Lasts (kernelSpace k R) P pm.mem) (hk : k ∈ R)
    (hcr : Created k u R pm pm') : Lasts (kernelSpace k (u :: R)) P pm'.mem := by
  intro r p t j hr hp hlen ht hj
  rcases hcr.place hk hr hp ht with ⟨_, rfl, _⟩ | ⟨r₀, hr₀, ht₀, _⟩
  · simp at hlen
  · rw [hcr.same ⟨r₀, p, hr₀, hp, ht₀⟩ hj]
    exact h hr₀ hp hlen ht₀ hj

theorem Lasts.grew (h : Lasts σ P pm.mem) (h0 : P 0)
    (hg : Grew σ b r full user pm live new pm') (hfull : full.length ≤ 3) : Lasts σ P pm'.mem := by
  intro r' p t j hr hp hlen ht hj
  have hoff : ¬ σ.scheme.On r full r' (j :: p) := by
    intro hon
    have hle := hon.1.length_le
    rw [List.length_cons] at hle
    omega
  rcases hg.along.fresh hr hp ht with hold | ⟨_, _, hblank⟩
  · rw [hg.along.kept hr hp hold hj hoff]
    exact h hr hp hlen hold hj
  · rw [hblank j hj hoff]
    exact h0

/-! ### `map` -/

theorem Lasts.getOrCreateTable (hL : Lasts σ P pm.mem) (h0 : P 0) (h : Tables σ b live pm)
    (hr : σ.root r) (hp : σ.scheme.Path (i :: p))
    (ht : σ.scheme.descend (entry pm.mem) r p = some t)
    (he : getOrCreateTable pm (entryAt t i) (tableFlags F) = some (t', pm')) :
    ∃ live', Tables σ b live' pm' ∧ Lasts σ P pm'.mem ∧
      σ.scheme.descend (entry pm'.mem) r (i :: p) = some t' := by
  obtain ⟨new, hg, hd⟩ := getOrCreateTable_grew h hr hp ht he
  exact ⟨_, hg.tables, hL.grew h0 hg hp.le, hd⟩

theorem Lasts.store (hL : Lasts σ P pm.mem) (h : Tables σ b live pm) (hr : σ.root r)
    (hp : σ.scheme.Path p) (hlen : p.length = 3)
    (ht : σ.scheme.descend (entry pm.mem) r p = some t) (hj : j < TABLE_ENTRIES) {e : Nat}
    (he : e < 2 ^ 64) (hP : P e) : Lasts σ P (pm.mem.store (entryAt t j) e) := by
  intro r' q u i hr' hq hlen' hu hi
  have hsame := h.sameBut ⟨r, p, hr, hp, ht⟩ hj e
  have hlast : ¬ p.length < σ.scheme.depth := by
    rw [hlen]
    exact Nat.lt_irrefl 3
  rw [hsame.descend_eq h.tree hr hp ht (fun hlt => absurd hlt hlast) hr' hq] at hu
  by_cases heq : u = t ∧ i = j
  · obtain ⟨rfl, rfl⟩ := heq
    rw [entry_store_self _ _ _ he]
    exact hP
  · rw [hsame ⟨r', q, hr', hq, hu⟩ hi fun h1 h2 => heq ⟨h1, h2⟩]
    exact hL hr' hq hlen' hu hi

theorem Lasts.map (hL : Lasts σ P pm.mem) (h0 : P 0) (h : Tables σ b live pm) (hr : σ.root r)
    (hP : P (setAddr phys (F ||| EntryFlags.PRESENT)))
    (he : Mapper.map pm r virt phys F = some pm') :
    ∃ live', Tables σ b live' pm' ∧ Lasts σ P pm'.mem := by
  have hp3 := path_indices (σ := σ) virt
  simp only [Mapper.map, Option.bind_eq_bind, Option.bind_eq_some_iff] at he
  obtain ⟨⟨pdpt, pm₁⟩, he₁, ⟨pd, pm₂⟩, he₂, ⟨pt, pm₃⟩, he₃, he⟩ := he
  obtain rfl := Option.some.inj he
  obtain ⟨_, h₁, hL₁, hd₁⟩ := hL.getOrCreateTable h0 h hr hp3.tail.tail rfl he₁
  obtain ⟨_, h₂, hL₂, hd₂⟩ := hL₁.getOrCreateTable h0 h₁ hr hp3.tail hd₁ he₂
  obtain ⟨_, h₃, hL₃, hd₃⟩ := hL₂.getOrCreateTable h0 h₂ hr hp3 hd₂ he₃
  have hw : Grew σ b r (indices virt) F.user pm₃ _ [] _ := writeEntry_spec h₃ hr hp3 rfl hd₃
    (index_lt virt 12) (setAddr phys (F ||| EntryFlags.PRESENT))
  exact ⟨_, hw.tables, hL₃.store h₃ hr hp3 rfl hd₃ (index_lt virt 12) (setAddr_lt _ _) hP⟩

/-- **A run of `map` calls** keeps what zero and the entries of all calls satisfy. -/
theorem Lasts.mapAll (h0 : P 0) (hr : σ.root r) (calls : List Call)
    (hcalls : ∀ c ∈ calls, P c.entry) : ∀ {pm live}, Lasts σ P pm.mem → Tables σ b live pm →
    Mapper.mapAll pm r calls = some pm' → ∃ live', Tables σ b live' pm' ∧ Lasts σ P pm'.mem := by
  induction calls with
  | nil =>
    intro pm live hL h he
    obtain rfl := Option.some.inj he
    exact ⟨live, h, hL⟩
  | cons c calls ih =>
    intro pm live hL h he
    obtain ⟨pm₁, hmap, he⟩ := Option.bind_eq_some_iff.mp he
    obtain ⟨_, h₁, hL₁⟩ := hL.map h0 h hr (hcalls c List.mem_cons_self) hmap
    exact ih (fun c hc => hcalls c (List.mem_cons_of_mem _ hc)) hL₁ h₁ he

/-! ### Reading -/

theorem Lasts.walk (hL : Lasts σ P pm.mem) (h : Tables σ b live pm) (hr : σ.root r)
    {x : Translation} (hx : walk pm.mem r virt = some x) :
    ∃ e, P e ∧ x.writable = (flags e).writable ∧ x.nx = (flags e).nx := by
  have hp := path_indices (σ := σ) virt
  rw [walk_eq_trail σ, Option.bind_eq_some_iff] at hx
  obtain ⟨l, hl, hx⟩ := hx
  cases hd : σ.scheme.descend (entry pm.mem) r (indices virt).tail with
  | none =>
    rw [indices, List.tail_cons] at hd
    rw [indices, Scheme.trail, hd] at hl
    simp at hl
  | some pt =>
    obtain ⟨tables, htables⟩ := Scheme.exists_trail hd
    rw [trail_indices hd htables] at hl
    obtain rfl := Option.some.inj hl
    rw [translate_tables ((Scheme.allOn_iff htables).mp (h.allOn hr hp hd))] at hx
    split at hx
    · obtain rfl := Option.some.inj hx
      exact ⟨_, hL hr hp rfl hd (index_lt virt 12), rfl, rfl⟩
    · simp at hx

theorem lasts_of_zero (hroot : ∀ {r'}, σ.root r' → r' = r)
    (hzero : ∀ i < TABLE_ENTRIES, entry m r i = 0) : Lasts σ P m := by
  intro r' p t j hr' hp hlen ht
  obtain rfl := hroot hr'
  rw [descend_of_zero hzero hp, if_neg] at ht
  · simp at ht
  · rintro rfl
    simp at hlen

end Mapper

end Zeronix
