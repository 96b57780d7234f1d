import Zeronix.Lib.Word
import Zeronix.ListOps

/-!
# Iteration that survives removal

`list_for_each_safe!` and `list_for_each_entry_safe!` read the next pointer before the body runs,
so a body may take the current node out of the list.  A `SafeAction` is what the body does with
that node; everything else it does, to its locals and to other memory, is free.

The invariant of the loops is that the list is `kept ++ ys`: the nodes that stayed, and then those
to come, whose first one the saved pointer is at.
-/

namespace Zeronix

namespace ListNode

open Ring

variable {σ : Type}

/-! ### The loops -/

/-- The `while` loop of `list_for_each_safe!`. -/
def forEachSafeLoop (body : Nat → σ × Memory → σ × Memory) (head : Nat) :
    Nat → Nat → σ × Memory → Option (σ × Memory)
  | 0, _, _ => none
  | fuel + 1, pos, s =>
    if pos = head then some s
    else
      let n := next s.2 pos
      forEachSafeLoop body head fuel n (body pos s)

def listForEachSafe (body : Nat → σ × Memory → σ × Memory) (head fuel : Nat) (s : σ × Memory) :
    Option (σ × Memory) :=
  forEachSafeLoop body head fuel (next s.2 head) s

/-- `container_of_mut!`: the subtraction is checked in a build with overflow checks and wraps in
one without. -/
def containerOfMut (checks : Bool) (ptr offset : Nat) : Option Nat :=
  if checks then Word.sub ptr offset
  else some ((ptr + Word.modulus - offset) % Word.modulus)

/-- `&(*pos).member`. -/
def memberOf (pos offset : Nat) : Nat := (pos + offset) % Word.modulus

/-- The `while` loop of `list_for_each_entry_safe!`. -/
def forEachEntrySafeLoop (checks : Bool) (offset : Nat) (body : Nat → σ × Memory → σ × Memory)
    (head : Nat) : Nat → Nat → σ × Memory → Option (σ × Memory)
  | 0, _, _ => none
  | fuel + 1, pos, s =>
    if memberOf pos offset = head then some s
    else do
      let n ← containerOfMut checks (next s.2 (memberOf pos offset)) offset
      forEachEntrySafeLoop checks offset body head fuel n (body pos s)

def listForEachEntrySafe (checks : Bool) (offset : Nat) (body : Nat → σ × Memory → σ × Memory)
    (head fuel : Nat) (s : σ × Memory) : Option (σ × Memory) := do
  let pos ← containerOfMut checks (next s.2 head) offset
  forEachEntrySafeLoop checks offset body head fuel pos s

/-! ### What a body does with the current node -/

inductive SafeAction
  | keep
  | remove
  | move (head : Nat)
  | moveTail (head : Nat)
  deriving DecidableEq

namespace SafeAction

/-- The calls on the current node. -/
def apply (pos : Nat) (m : Memory) : SafeAction → Memory
  | keep => m
  | remove => listRemove m pos
  | move head => listMove m pos head
  | moveTail head => listMoveTail m pos head

/-- What they do to the sequences. -/
def onLists (xs : Nat → List Nat) (src pos : Nat) : SafeAction → Nat → List Nat
  | keep => xs
  | remove => without xs src pos
  | move head => Function.update (without xs src pos) head (pos :: without xs src pos head)
  | moveTail head => Function.update (without xs src pos) head (without xs src pos head ++ [pos])

/-- A move goes to another list. -/
def Elsewhere (heads : Set Nat) (src : Nat) : SafeAction → Prop
  | keep => True
  | remove => True
  | move head => head ∈ heads ∧ head ≠ src
  | moveTail head => head ∈ heads ∧ head ≠ src

end SafeAction

/-- The body does with the current node what `choose` says, and leaves the links of all nodes as
that does. -/
structure SafeBody (nodes heads : Set Nat) (src : Nat) (members : List Nat)
    (choose : Nat → σ × Memory → SafeAction) (body : Nat → σ × Memory → σ × Memory) : Prop where
  elsewhere : ∀ pos ∈ members, ∀ s, (choose pos s).Elsewhere heads src
  next_eq : ∀ pos ∈ members, ∀ s, ∀ a ∈ nodes,
    next (body pos s).2 a = next ((choose pos s).apply pos s.2) a
  prev_eq : ∀ pos ∈ members, ∀ s, ∀ a ∈ nodes,
    prev (body pos s).2 a = prev ((choose pos s).apply pos s.2) a

/-- The body run on one node after another. -/
def pass (body : Nat → σ × Memory → σ × Memory) (ys : List Nat) (s : σ × Memory) : σ × Memory :=
  ys.foldl (fun s pos => body pos s) s

/-- What it did with each of them. -/
def actions (choose : Nat → σ × Memory → SafeAction) (body : Nat → σ × Memory → σ × Memory) :
    List Nat → σ × Memory → List (Nat × SafeAction)
  | [], _ => []
  | pos :: ys, s => (pos, choose pos s) :: actions choose body ys (body pos s)

/-- The nodes that `act` was done with, in order. -/
def acted (act : SafeAction) (log : List (Nat × SafeAction)) : List Nat :=
  (log.filter fun e => e.2 = act).map Prod.fst

/-- A list with the nodes that were moved to it. -/
def received (xs : Nat → List Nat) (log : List (Nat × SafeAction)) (h : Nat) : List Nat :=
  (acted (.move h) log).reverse ++ xs h ++ acted (.moveTail h) log

/-- The sequences after a pass over the list at `src`, which keeps what was neither removed nor
moved. -/
def afterPass (xs : Nat → List Nat) (src : Nat) (log : List (Nat × SafeAction)) :
    Nat → List Nat := Function.update (received xs log) src (acted .keep log)

theorem acted_append (act : SafeAction) (l₁ l₂ : List (Nat × SafeAction)) :
    acted act (l₁ ++ l₂) = acted act l₁ ++ acted act l₂ := by
  rw [acted, List.filter_append, List.map_append]
  rfl

theorem received_append (xs : Nat → List Nat) (l₁ l₂ : List (Nat × SafeAction)) (h : Nat) :
    received xs (l₁ ++ l₂) h = received (received xs l₁) l₂ h := by
  simp only [received, acted_append, List.reverse_append, List.append_assoc]

/-! ### One round -/

section Round

variable {nodes heads : Set Nat} {xs : Nat → List Nat} {m : Memory} {src pos : Nat}
variable {kept ys : List Nat} {act : SafeAction}

theorem Lists.apply (hn : Nodes nodes) (h : Lists m nodes heads xs) (hsrc : src ∈ heads)
    (hpos : pos ∈ xs src) (hact : act.Elsewhere heads src) :
    Lists (act.apply pos m) nodes heads (act.onLists xs src pos) := by
  cases act with
  | keep => exact h
  | remove => exact (h.remove hn hsrc hpos).1
  | move head => exact h.move hn hsrc hpos hact.1
  | moveTail head => exact h.moveTail hn hsrc hpos hact.1

theorem Lists.onLists_src (h : Lists m nodes heads xs) (hsrc : src ∈ heads)
    (hxs : xs src = kept ++ pos :: ys) (hact : act.Elsewhere heads src) :
    act.onLists xs src pos src = kept ++ acted .keep [(pos, act)] ++ ys := by
  have hout : without xs src pos src = kept ++ ys := by
    rw [without, Function.update_self, h.erase_eq hsrc hxs]
  cases act with
  | keep => simpa [acted, SafeAction.onLists] using hxs
  | remove => simpa [acted, SafeAction.onLists] using hout
  | move head =>
    rw [SafeAction.onLists, Function.update_of_ne hact.2.symm, hout]
    simp [acted]
  | moveTail head =>
    rw [SafeAction.onLists, Function.update_of_ne hact.2.symm, hout]
    simp [acted]

theorem onLists_of_ne {h : Nat} (hne : h ≠ src) :
    act.onLists xs src pos h = received xs [(pos, act)] h := by
  have hout : ∀ h', h' ≠ src → without xs src pos h' = xs h' := fun h' hne' =>
    Function.update_of_ne hne' _ _
  cases act with
  | keep => simp [received, acted, SafeAction.onLists]
  | remove => simp [received, acted, SafeAction.onLists, hout h hne]
  | move head =>
    by_cases heq : h = head
    · subst heq
      simp [received, acted, SafeAction.onLists, hout h hne]
    · simp [received, acted, SafeAction.onLists, hout h hne, heq, Ne.symm heq]
  | moveTail head =>
    by_cases heq : h = head
    · subst heq
      simp [received, acted, SafeAction.onLists, hout h hne]
    · simp [received, acted, SafeAction.onLists, hout h hne, heq, Ne.symm heq]

end Round

/-! ### Whole runs -/

section Runs

variable {nodes heads : Set Nat} {xs : Nat → List Nat} {src : Nat} {kept ys : List Nat}
variable {choose : Nat → σ × Memory → SafeAction} {body : Nat → σ × Memory → σ × Memory}
variable {s : σ × Memory}

theorem SafeBody.tail {pos : Nat} (hb : SafeBody nodes heads src (pos :: ys) choose body) :
    SafeBody nodes heads src ys choose body :=
  ⟨fun p hp => hb.elsewhere p (List.mem_cons_of_mem pos hp),
    fun p hp => hb.next_eq p (List.mem_cons_of_mem pos hp),
    fun p hp => hb.prev_eq p (List.mem_cons_of_mem pos hp)⟩

/-- **One round of the body**, on the first of the nodes to come. -/
theorem SafeBody.round {pos : Nat} (hn : Nodes nodes)
    (hb : SafeBody nodes heads src (pos :: ys) choose body) (h : Lists s.2 nodes heads xs)
    (hsrc : src ∈ heads) (hxs : xs src = kept ++ pos :: ys) :
    Lists (body pos s).2 nodes heads ((choose pos s).onLists xs src pos) ∧
      (choose pos s).onLists xs src pos src =
        kept ++ acted .keep [(pos, choose pos s)] ++ ys := by
  have hact := hb.elsewhere pos List.mem_cons_self s
  have hpos : pos ∈ xs src := by
    rw [hxs]
    exact List.mem_append_right kept List.mem_cons_self
  exact ⟨(h.apply hn hsrc hpos hact).of_links (hb.next_eq pos List.mem_cons_self s)
    (hb.prev_eq pos List.mem_cons_self s), h.onLists_src hsrc hxs hact⟩

/-- **The lists after the body ran on all nodes to come.** -/
theorem SafeBody.lists (hn : Nodes nodes) (hsrc : src ∈ heads)
    (hb : SafeBody nodes heads src ys choose body) (h : Lists s.2 nodes heads xs)
    (hxs : xs src = kept ++ ys) :
    Lists (pass body ys s).2 nodes heads
      (Function.update (received xs (actions choose body ys s)) src
        (kept ++ acted .keep (actions choose body ys s))) := by
  induction ys generalizing xs kept s with
  | nil =>
    apply h.congr
    intro h' hh'
    by_cases hne : h' = src
    · rw [hne, Function.update_self, hxs]
      rfl
    · rw [Function.update_of_ne hne]
      exact List.append_nil _
  | cons pos ys ih =>
    obtain ⟨hlists, hsplit⟩ := hb.round hn h hsrc hxs
    apply (ih hb.tail hlists hsplit).congr
    intro h' hh'
    have hlog : actions choose body (pos :: ys) s =
        [(pos, choose pos s)] ++ actions choose body ys (body pos s) := rfl
    by_cases hne : h' = src
    · rw [hne, Function.update_self, Function.update_self, hlog, acted_append, List.append_assoc]
    · rw [Function.update_of_ne hne, Function.update_of_ne hne, hlog, received_append]
      simp only [received, onLists_of_ne hne]

theorem Lists.next_cons {m : Memory} {pos : Nat} (h : Lists m nodes heads xs) (hsrc : src ∈ heads)
    (hxs : xs src = kept ++ pos :: ys) : pos ≠ src ∧ next m pos = ys.headD src := by
  refine ⟨?_, (h.links hsrc hxs).2⟩
  rintro rfl
  have hnodup := (h.rings.ring pos hsrc).nodup
  rw [hxs] at hnodup
  exact (List.nodup_cons.mp hnodup).1 (List.mem_append_right kept List.mem_cons_self)

/-- **The loop runs the body once on each node to come.** -/
theorem SafeBody.loop (hn : Nodes nodes) (hsrc : src ∈ heads)
    (hb : SafeBody nodes heads src ys choose body) (h : Lists s.2 nodes heads xs)
    (hxs : xs src = kept ++ ys) {fuel : Nat} (hfuel : ys.length < fuel) :
    forEachSafeLoop body src fuel (ys.headD src) s = some (pass body ys s) := by
  induction ys generalizing xs kept s fuel with
  | nil =>
    obtain ⟨fuel, rfl⟩ := Nat.exists_eq_succ_of_ne_zero (Nat.ne_of_gt hfuel)
    rw [forEachSafeLoop, List.headD_nil, if_pos rfl]
    rfl
  | cons pos ys ih =>
    obtain ⟨fuel, rfl⟩ := Nat.exists_eq_succ_of_ne_zero (Nat.ne_of_gt (Nat.zero_lt_of_lt hfuel))
    obtain ⟨hlists, hsplit⟩ := hb.round hn h hsrc hxs
    obtain ⟨hne, hnext⟩ := h.next_cons hsrc hxs
    rw [forEachSafeLoop, List.headD_cons, if_neg hne, hnext]
    exact ih hb.tail hlists hsplit (Nat.lt_of_succ_lt_succ hfuel)

/-! ### Containers -/

variable {checks : Bool} {offset : Nat}

theorem containerOfMut_of_le {a : Nat} (ha : a < 2 ^ 64) (hle : offset ≤ a) :
    containerOfMut checks a offset = some (a - offset) := by
  cases checks with
  | true => exact Word.sub_eq_some.mpr ⟨hle, rfl⟩
  | false =>
    rw [containerOfMut, if_neg (by simp)]
    unfold Word.modulus
    congr 1
    omega

theorem memberOf_sub {a : Nat} (ha : a < 2 ^ 64) (hle : offset ≤ a) :
    memberOf (a - offset) offset = a := by
  rw [memberOf, Nat.sub_add_cancel hle]
  exact Nat.mod_eq_of_lt ha

theorem exists_containerOfMut {a : Nat} (hoffset : offset < 2 ^ 64) (ha : a < 2 ^ 64)
    (hle : checks = true → offset ≤ a) :
    ∃ c, containerOfMut checks a offset = some c ∧ memberOf c offset = a := by
  cases checks with
  | true => exact ⟨a - offset, containerOfMut_of_le ha (hle rfl), memberOf_sub ha (hle rfl)⟩
  | false =>
    refine ⟨_, rfl, ?_⟩
    unfold memberOf Word.modulus
    omega

/-- **The loop over containers runs the body once on each of them.** -/
theorem SafeBody.entryLoop (hn : Nodes nodes) (hsrc : src ∈ heads) (hoffset : offset < 2 ^ 64)
    (hhead : checks = true → offset ≤ src) (hentry : ∀ a ∈ ys, offset ≤ a)
    (hb : SafeBody nodes heads src ys choose fun node s => body (node - offset) s)
    (h : Lists s.2 nodes heads xs) (hxs : xs src = kept ++ ys) {fuel : Nat}
    (hfuel : ys.length < fuel) :
    (containerOfMut checks (ys.headD src) offset).bind
        (fun pos => forEachEntrySafeLoop checks offset body src fuel pos s) =
      some (pass body (ys.map (· - offset)) s) := by
  induction ys generalizing xs kept s fuel with
  | nil =>
    obtain ⟨fuel, rfl⟩ := Nat.exists_eq_succ_of_ne_zero (Nat.ne_of_gt hfuel)
    have hlt := hn.lt src (h.mem src ⟨src, hsrc, List.mem_cons_self⟩)
    obtain ⟨c, hc, hmember⟩ := exists_containerOfMut hoffset hlt hhead
    rw [List.headD_nil, hc, Option.bind_some, forEachEntrySafeLoop, if_pos hmember]
    rfl
  | cons pos ys ih =>
    obtain ⟨fuel, rfl⟩ := Nat.exists_eq_succ_of_ne_zero (Nat.ne_of_gt (Nat.zero_lt_of_lt hfuel))
    obtain ⟨hlists, hsplit⟩ := hb.round hn h hsrc hxs
    obtain ⟨hne, hnext⟩ := h.next_cons hsrc hxs
    have hlt : pos < 2 ^ 64 := hn.lt pos (h.mem pos ⟨src, hsrc, by rw [hxs]; simp⟩)
    have hle := hentry pos List.mem_cons_self
    rw [List.headD_cons, containerOfMut_of_le hlt hle, Option.bind_some, forEachEntrySafeLoop,
      memberOf_sub hlt hle, if_neg hne, hnext]
    exact ih (fun a ha => hentry a (List.mem_cons_of_mem pos ha)) hb.tail hlists hsplit
      (Nat.lt_of_succ_lt_succ hfuel)

theorem actions_fst (s : σ × Memory) : (actions choose body ys s).map Prod.fst = ys := by
  induction ys generalizing s with
  | nil => rfl
  | cons pos ys ih => exact congrArg (pos :: ·) (ih (body pos s))

theorem pass_map (f : Nat → Nat) :
    pass body (ys.map f) s = pass (fun pos s => body (f pos) s) ys s := List.foldl_map

/-- **Safe iteration.**  The loops end, run the body once on each node in order, and leave the list
with the nodes that stayed and the other lists with those that were moved to them. -/
theorem safe_iteration {head : Nat} (hn : Nodes nodes) (s : σ × Memory)
    (h : Lists s.2 nodes heads xs) (hh : head ∈ heads) (choose : Nat → σ × Memory → SafeAction) :
    (∀ body, SafeBody nodes heads head (xs head) choose body → ∀ fuel > (xs head).length,
      listForEachSafe body head fuel s = some (pass body (xs head) s) ∧
      (actions choose body (xs head) s).map Prod.fst = xs head ∧
      Lists (pass body (xs head) s).2 nodes heads
        (afterPass xs head (actions choose body (xs head) s))) ∧
    (∀ checks offset, offset < 2 ^ 64 → (checks = true → offset ≤ head) →
      (∀ node ∈ xs head, offset ≤ node) → ∀ body : Nat → σ × Memory → σ × Memory,
      let onNode := fun node s => body (node - offset) s
      SafeBody nodes heads head (xs head) choose onNode → ∀ fuel > (xs head).length,
      let entries := (xs head).map (· - offset)
      listForEachEntrySafe checks offset body head fuel s = some (pass body entries s) ∧
      (actions choose onNode (xs head) s).map Prod.fst = xs head ∧
      Lists (pass body entries s).2 nodes heads
        (afterPass xs head (actions choose onNode (xs head) s))) := by
  have hfirst := (h.rings.ring head hh).next_head
  have hxs : xs head = [] ++ xs head := rfl
  refine ⟨fun body hb fuel hfuel => ⟨?_, actions_fst _, hb.lists hn hh h hxs⟩, ?_⟩
  · rw [listForEachSafe, hfirst]
    exact hb.loop hn hh h hxs hfuel
  · intro checks offset hoffset hhead hentry body onNode hb fuel hfuel entries
    refine ⟨?_, actions_fst _, ?_⟩
    · have hloop := hb.entryLoop hn hh hoffset hhead hentry h hxs hfuel
      rw [← hfirst] at hloop
      exact hloop
    · have hlists := hb.lists hn hh h hxs
      rw [← pass_map] at hlists
      exact hlists

/-! ### Two members -/

/-- The first list with two members. -/
def twoMembers : Memory := listAppend (listAdd twoHeads 0x1020 0x1000) 0x1030 0x1000

theorem lists_twoMembers : Lists twoMembers fourNodes {0x1010, 0x1000}
    (Function.update (fun _ => []) 0x1000 [0x1020, 0x1030]) := by
  have hhead : 0x1000 ∈ ({0x1010, 0x1000} : Set Nat) := by simp
  have hx : 0x1020 ∈ fourNodes := by simp [fourNodes]
  have hy : 0x1030 ∈ fourNodes := by simp [fourNodes]
  have hfirst := lists_twoHeads.add nodes_fourNodes hhead hx (by simp [OnRing])
  have hboth := hfirst.append nodes_fourNodes hhead hy (by simp [OnRing])
  rw [Function.update_idem, Function.update_self] at hboth
  exact hboth

/-- The first member goes to the other list and all others are removed. -/
def moveFirst (pos : Nat) (_ : List Nat × Memory) : SafeAction :=
  if pos = 0x1020 then .move 0x1010 else .remove

/-- Its body also writes down the positions. -/
def moveFirstBody (pos : Nat) (s : List Nat × Memory) : List Nat × Memory :=
  (s.1 ++ [pos], (moveFirst pos s).apply pos s.2)

theorem safeBody_moveFirst {members : List Nat} {f : Nat → Nat}
    (hf : ∀ pos ∈ members, f pos = pos) :
    SafeBody fourNodes {0x1010, 0x1000} 0x1000 members moveFirst
      fun pos s => moveFirstBody (f pos) s := by
  refine ⟨fun pos _ s => ?_, fun pos hpos s a _ => ?_, fun pos hpos s a _ => ?_⟩
  · by_cases hfirst : pos = 0x1020
    · simp [moveFirst, hfirst, SafeAction.Elsewhere]
    · simp [moveFirst, hfirst, SafeAction.Elsewhere]
  · rw [hf pos hpos]
    rfl
  · rw [hf pos hpos]
    rfl

theorem safe_iteration_moveFirst :
    listForEachSafe moveFirstBody 0x1000 3 ([], twoMembers) =
      some (pass moveFirstBody [0x1020, 0x1030] ([], twoMembers)) ∧
    listForEachEntrySafe true 8 (fun entry s => moveFirstBody (entry + 8) s) 0x1000 3
      ([], twoMembers) =
      some (pass (fun entry s => moveFirstBody (entry + 8) s) [0x1018, 0x1028] ([], twoMembers)) ∧
    Lists (pass moveFirstBody [0x1020, 0x1030] ([], twoMembers)).2 fourNodes {0x1010, 0x1000}
      (Function.update (fun _ => []) 0x1010 [0x1020]) := by
  have hhead : 0x1000 ∈ ({0x1010, 0x1000} : Set Nat) := by simp
  obtain ⟨hloop, hentries⟩ :=
    safe_iteration nodes_fourNodes ([], twoMembers) lists_twoMembers hhead moveFirst
  obtain ⟨hrun, -, hlists⟩ := hloop _ (safeBody_moveFirst fun _ _ => rfl) 3 (by simp)
  obtain ⟨hentryRun, -⟩ := hentries true 8 (by decide) (fun _ => by decide) (by simp)
    (fun entry s => moveFirstBody (entry + 8) s) (safeBody_moveFirst (by simp)) 3 (by simp)
  refine ⟨hrun, hentryRun, hlists.congr ?_⟩
  simp [afterPass, received, acted, actions, moveFirst]

end Runs

end ListNode

end Zeronix
