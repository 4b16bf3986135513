/-
  `insert_recursively`: ORPHAN PROMOTION, the recursion at the heart of the gossip protocol.

      fn insert_recursively(&mut self, block, out_hashes) {
          if self.contains_block(&block.hash()) { return; }
          self.insert(block);
          out_hashes.push(block.hash());
          if self.orphan_buffer.contains_key(&block.hash()) {
              for child in self.orphan_buffer.remove(&block.hash()).unwrap() {
                  self.insert_recursively(&child, out_hashes);
              }
          }
      }

  The recursion is NESTED in a `for` over an entry it has just removed, and the store is
  threaded through every call, so no argument of it shrinks structurally.  What shrinks is the
  orphan buffer: each nested call runs on a buffer with one key fewer than its caller's.  So
  the model is the `memoFuel` pattern — a structural recursion on a depth bound
  (`insertRecursivelyAux`), the real function at the bound `#keys + 1`
  (`insertRecursively`), and the theorem that the bound is never reached
  (`insertRecursivelyAux_fuel`), which turns into the source's own recursion equation
  (`insertRecursively_eq`).

  Every property of a call is proved ONCE PER SHAPE:
  * `insertRecursivelyAux_inv` — an invariant of (store, out-list) kept by the local step
    (insert, push, take out the waiting children) is kept by the whole recursion;
  * `Extends` — the frame of a call: stored blocks, heights, difficulty and origins stay, and
    the orphan buffer only loses the entries of hashes the call newly stored;
  * `Drained` — the promotion law: every block that waited under a hash the call newly stored
    is stored when the call returns (transitively, since each child is itself a call).
-/
import PowNode.Blockchain

namespace PowNode

/-! ## Folding in `Option` -/

/-- An invariant that every step of an `Option`-fold keeps is kept by the fold. -/
theorem foldlM_inv {α β : Type} {f : α → β → Option α} (I : α → Prop) :
    ∀ {l : List β} {a r : α}, (∀ a x a', x ∈ l → I a → f a x = some a' → I a') → I a →
      l.foldlM f a = some r → I r
  | [], a, r, _, ha, h => by simp at h; exact h ▸ ha
  | x :: l, a, r, hf, ha, h => by
    simp only [List.foldlM, Option.bind_eq_bind, Option.bind_eq_some] at h
    obtain ⟨a', ha', h⟩ := h
    exact foldlM_inv I (fun a y a' hy => hf a y a' (List.mem_cons_of_mem _ hy))
      (hf a x a' (List.mem_cons_self _ _) ha ha') h

/-- What each element's own step establishes, and every later step keeps, holds at the end. -/
theorem foldlM_post {α β : Type} {f : α → β → Option α} (Q : β → α → Prop) :
    ∀ {l : List β} {a r : α}, (∀ a x a', x ∈ l → f a x = some a' → Q x a') →
      (∀ a x y a', y ∈ l → Q x a → f a y = some a' → Q x a') →
      l.foldlM f a = some r → ∀ x ∈ l, Q x r
  | [], _, _, _, _, _ => by simp
  | y :: l, a, r, hf, hkeep, h => by
    simp only [List.foldlM, Option.bind_eq_bind, Option.bind_eq_some] at h
    obtain ⟨a', ha', h⟩ := h
    have hrest := foldlM_post Q (fun a x a' hx => hf a x a' (List.mem_cons_of_mem _ hx))
      (fun a x z a' hz => hkeep a x z a' (List.mem_cons_of_mem _ hz)) h
    intro x hx
    rcases List.mem_cons.mp hx with rfl | hx
    · exact foldlM_inv (Q x) (fun a z a' hz hq hs => hkeep a x z a' (List.mem_cons_of_mem _ hz) hq hs)
        (hf a x a' (List.mem_cons_self _ _) ha') h
    · exact hrest x hx

/-- Two `Option`-folds agree when their steps agree on every state an invariant allows. -/
theorem foldlM_congr {α β : Type} {f g : α → β → Option α} (I : α → Prop) :
    ∀ {l : List β} {a : α}, (∀ a x, x ∈ l → I a → f a x = g a x) →
      (∀ a x a', x ∈ l → I a → f a x = some a' → I a') → I a → l.foldlM f a = l.foldlM g a
  | [], _, _, _, _ => rfl
  | x :: l, a, hfg, hI, ha => by
    simp only [List.foldlM, Option.bind_eq_bind]
    rw [← hfg a x (List.mem_cons_self _ _) ha]
    rcases hx : f a x with _ | a'
    · rfl
    · exact foldlM_congr I (fun a y hy => hfg a y (List.mem_cons_of_mem _ hy))
        (fun a y a' hy => hI a y a' (List.mem_cons_of_mem _ hy))
        (hI a x a' (List.mem_cons_self _ _) ha hx)

namespace Blockchain

variable {H : Type} [LinearOrder H] (E : Env H)

/-! ## The function -/

/-- `insert_recursively` with at most `fuel` levels of nesting (`none` past it, as for a panic
    of the `unwrap` inside `insert`). -/
def insertRecursivelyAux : Nat → Blockchain H → Block H → List H → Option (Blockchain H × List H)
  | 0, _, _, _ => none
  | n + 1, s, b, out =>
    if s.containsBlock (E.hash b) then some (s, out) else do
      let s ← s.insert E b
      let out := out ++ [E.hash b]
      match s.orphanBuffer.lookup (E.hash b) with
      | none => pure (s, out)
      | some children =>
        children.foldlM (fun acc child => insertRecursivelyAux n acc.1 child acc.2)
          ({ s with orphanBuffer := s.orphanBuffer.erase (E.hash b) }, out)

/-- `Blockchain::insert_recursively`: the recursion, with one level more than the orphan
    buffer has keys — enough, by `insertRecursivelyAux_fuel`. -/
def insertRecursively (s : Blockchain H) (b : Block H) (out : List H) :
    Option (Blockchain H × List H) :=
  insertRecursivelyAux E (s.orphanBuffer.keys.card + 1) s b out

variable {E}

/-- The three ways a call ends: its block was already stored; it was inserted and nothing waited
    for it; or it was inserted and the children waiting for it were handed to the loop. -/
theorem insertRecursivelyAux_succ {n : Nat} {s : Blockchain H} {b : Block H} {out : List H}
    {r : Blockchain H × List H} :
    insertRecursivelyAux E (n + 1) s b out = some r ↔
      (E.hash b ∈ s.hashToBlock ∧ r = (s, out)) ∨
      (E.hash b ∉ s.hashToBlock ∧ ∃ s₁, s.insert E b = some s₁ ∧
        ((s₁.orphanBuffer.lookup (E.hash b) = none ∧ r = (s₁, out ++ [E.hash b])) ∨
         ∃ cs, s₁.orphanBuffer.lookup (E.hash b) = some cs ∧
          cs.foldlM (fun acc child => insertRecursivelyAux E n acc.1 child acc.2)
            ({ s₁ with orphanBuffer := s₁.orphanBuffer.erase (E.hash b) }, out ++ [E.hash b])
            = some r)) := by
  simp only [insertRecursivelyAux]
  by_cases hc : E.hash b ∈ s.hashToBlock
  · simp [hc, eq_comm (a := r)]
  · simp only [containsBlock_iff, hc, if_false, Option.bind_eq_bind, Option.bind_eq_some,
      false_and, false_or, not_false_eq_true, true_and]
    refine exists_congr fun s₁ => and_congr_right fun _ => ?_
    rcases hl : s₁.orphanBuffer.lookup (E.hash b) with _ | cs
    · simp [eq_comm (a := r)]
    · simp

/-! ## One invariant, kept by the whole recursion -/

/-- **Invariant transport.**  An invariant `I` of the store and the out-list, kept by the local
    step of a call — insert the block (it was not stored), push its hash, and, if children
    waited for it, take their entry out — is kept by every call.  `P` is what a call knows of
    its block; the local step must pass it on to the children it takes out. -/
theorem insertRecursivelyAux_inv (I : Blockchain H → List H → Prop) (P : Block H → Prop)
    (hstep : ∀ s out b s₁, I s out → P b → E.hash b ∉ s.hashToBlock → s.insert E b = some s₁ →
      (s₁.orphanBuffer.lookup (E.hash b) = none → I s₁ (out ++ [E.hash b])) ∧
      ∀ cs, s₁.orphanBuffer.lookup (E.hash b) = some cs → (∀ c ∈ cs, P c) ∧
        I { s₁ with orphanBuffer := s₁.orphanBuffer.erase (E.hash b) } (out ++ [E.hash b])) :
    ∀ n s b out r, I s out → P b → insertRecursivelyAux E n s b out = some r → I r.1 r.2 := by
  intro n
  induction n with
  | zero => intro s b out r _ _ h; simp [insertRecursivelyAux] at h
  | succ n ih =>
    intro s b out r hI hP h
    rcases insertRecursivelyAux_succ.mp h with ⟨-, rfl⟩ | ⟨hc, s₁, hs₁, ⟨hn, rfl⟩ | ⟨cs, hcs, hfold⟩⟩
    · exact hI
    · exact (hstep s out b s₁ hI hP hc hs₁).1 hn
    · obtain ⟨hPc, hI₂⟩ := (hstep s out b s₁ hI hP hc hs₁).2 cs hcs
      exact foldlM_inv (fun acc => I acc.1 acc.2)
        (fun acc c acc' hc hI' h' => ih acc.1 c acc.2 acc' hI' (hPc c hc) h') hI₂ hfold

/-! ## The frame of a call -/

/-- **The frame of `insert_recursively`.**  From `s` to `r` every stored block keeps its entry
    and its height, difficulty and origins are untouched, and the orphan buffer changes only at
    hashes that `r` newly stores, whose entries are taken out. -/
structure Extends (s r : Blockchain H) : Prop where
  block : ∀ h c, s.hashToBlock.lookup h = some c → r.hashToBlock.lookup h = some c
  height : ∀ h, h ∈ s.hashToBlock → r.hashToHeight.lookup h = s.hashToHeight.lookup h
  difficulty : r.difficulty = s.difficulty
  origin : r.hashToOrigin = s.hashToOrigin
  orphan : ∀ p, (p ∈ r.hashToBlock → p ∈ s.hashToBlock) →
    r.orphanBuffer.lookup p = s.orphanBuffer.lookup p
  cleared : ∀ p, p ∈ r.hashToBlock → p ∉ s.hashToBlock → r.orphanBuffer.lookup p = none

theorem Extends.refl (s : Blockchain H) : Extends s s :=
  ⟨fun _ _ h => h, fun _ _ => rfl, rfl, rfl, fun _ _ => rfl, fun _ h h' => absurd h h'⟩

theorem Extends.mem {s r : Blockchain H} (hx : Extends s r) {h : H} (hh : h ∈ s.hashToBlock) :
    h ∈ r.hashToBlock := by
  obtain ⟨c, hc⟩ := Finmap.mem_iff.mp hh
  exact Finmap.mem_of_lookup_eq_some (hx.block h c hc)

/-- An orphan-buffer entry at a hash `r` does not store is as it was in `s`. -/
theorem Extends.orphan_of_not_mem {s r : Blockchain H} (hx : Extends s r) {p : H}
    (hp : p ∉ r.hashToBlock) : r.orphanBuffer.lookup p = s.orphanBuffer.lookup p :=
  hx.orphan p fun h => absurd h hp

theorem Extends.trans {s t r : Blockchain H} (hx : Extends s t) (hy : Extends t r) :
    Extends s r := by
  refine ⟨fun h c hh => hy.block h c (hx.block h c hh), fun h hh => ?_,
    hy.difficulty.trans hx.difficulty, hy.origin.trans hx.origin, fun p hp => ?_, fun p hr hs => ?_⟩
  · rw [hy.height h (hx.mem hh), hx.height h hh]
  · rw [hy.orphan p fun h => hx.mem (hp h), hx.orphan p fun h => hp (hy.mem h)]
  · by_cases ht : p ∈ t.hashToBlock
    · rw [hy.orphan p fun _ => ht, hx.cleared p ht hs]
    · exact hy.cleared p hr ht

/-- A call never adds an orphan-buffer key. -/
theorem Extends.keys_subset {s r : Blockchain H} (hx : Extends s r) :
    r.orphanBuffer.keys ⊆ s.orphanBuffer.keys := by
  intro p hp
  rw [Finmap.mem_keys, ← Finmap.lookup_isSome] at hp ⊢
  by_cases hn : p ∈ r.hashToBlock ∧ p ∉ s.hashToBlock
  · simp [hx.cleared p hn.1 hn.2] at hp
  · rwa [← hx.orphan p fun h => not_not.mp fun h' => hn ⟨h, h'⟩]

/-- The local step: inserting a block that is not stored extends, with any buffer that agrees
    with the new one away from the new hash and has no entry there. -/
theorem Extends.insert_with {s₀ s s₁ : Blockchain H} {b : Block H} (hx : Extends s₀ s)
    (hc : E.hash b ∉ s.hashToBlock) (hs₁ : s.insert E b = some s₁)
    {O : Finmap fun _ : H => List (Block H)}
    (hO : ∀ p, p ≠ E.hash b → O.lookup p = s₁.orphanBuffer.lookup p)
    (hb : O.lookup (E.hash b) = none) : Extends s₀ { s₁ with orphanBuffer := O } := by
  obtain ⟨n, t, -, -, hB, hH, -, hD, hO₁, hR⟩ := insert_eq_some.mp hs₁
  have hne : ∀ h, h ∈ s.hashToBlock → h ≠ E.hash b := fun h hh he => hc (he ▸ hh)
  refine ⟨fun h c hh => ?_, fun h hh => ?_, hD.trans hx.difficulty, hR.trans hx.origin,
    fun p hp => ?_, fun p h h' => ?_⟩
  · have hc' := hx.block h c hh
    rwa [hB, Finmap.lookup_insert_of_ne _ (hne h (Finmap.mem_of_lookup_eq_some hc'))]
  · rw [hH, Finmap.lookup_insert_of_ne _ (hne h (hx.mem hh)), hx.height h hh]
  · -- the new hash was stored in neither, so only the old hashes remain
    by_cases he : p = E.hash b
    · exact absurd (hp (by simp [hB, he])) fun h => hc (hx.mem (he ▸ h))
    · rw [hO p he, hO₁, hx.orphan p fun h => hp (by simp [hB, h])]
  · by_cases he : p = E.hash b
    · rw [he, hb]
    · rw [hO p he, hO₁]; exact hx.cleared p (by simpa [hB, he] using h) h'

/-- The same, for the two buffers `insert_recursively` leaves: the new one when nothing waited
    for the block, and the new one with the block's entry taken out. -/
theorem Extends.insert_erase {s₀ s s₁ : Blockchain H} {b : Block H} (hx : Extends s₀ s)
    (hc : E.hash b ∉ s.hashToBlock) (hs₁ : s.insert E b = some s₁) :
    (s₁.orphanBuffer.lookup (E.hash b) = none → Extends s₀ s₁) ∧
      Extends s₀ { s₁ with orphanBuffer := s₁.orphanBuffer.erase (E.hash b) } :=
  ⟨fun hnone => hx.insert_with hc hs₁ (fun _ _ => rfl) hnone,
    hx.insert_with hc hs₁ (fun _ he => Finmap.lookup_erase_ne he) (Finmap.lookup_erase _ _)⟩

/-- **Frame.**  A call only extends the store. -/
theorem insertRecursivelyAux_extends {n : Nat} {s : Blockchain H} {b : Block H} {out : List H}
    {r : Blockchain H × List H} (h : insertRecursivelyAux E n s b out = some r) : Extends s r.1 :=
  insertRecursivelyAux_inv (fun t _ => Extends s t) (fun _ => True)
    (fun _ _ _ _ hx _ hc hs₁ => ⟨(hx.insert_erase hc hs₁).1, fun _ _ =>
      ⟨fun _ _ => trivial, (hx.insert_erase hc hs₁).2⟩⟩)
    n s b out r (Extends.refl s) trivial h

/-- A call stores its block. -/
theorem insertRecursivelyAux_mem {n : Nat} {s : Blockchain H} {b : Block H} {out : List H}
    {r : Blockchain H × List H} (h : insertRecursivelyAux E n s b out = some r) :
    E.hash b ∈ r.1.hashToBlock := by
  cases n with
  | zero => simp [insertRecursivelyAux] at h
  | succ n =>
    rcases insertRecursivelyAux_succ.mp h with ⟨hc, rfl⟩ | ⟨-, s₁, hs₁, ⟨-, rfl⟩ | ⟨cs, -, hfold⟩⟩
    · exact hc
    · obtain ⟨_, _, -, -, hB, -⟩ := insert_eq_some.mp hs₁; simp [hB]
    · obtain ⟨_, _, -, -, hB, -⟩ := insert_eq_some.mp hs₁
      exact foldlM_inv (fun acc => E.hash b ∈ acc.1.hashToBlock)
        (fun _ _ _ _ hm h' => (insertRecursivelyAux_extends h').mem hm) (by simp [hB]) hfold

/-- A call on a block that is not stored leaves that very block under its hash: the calls it
    makes skip every stored hash, so none overwrites it. -/
theorem insertRecursivelyAux_lookup {n : Nat} {s : Blockchain H} {b : Block H} {out : List H}
    {r : Blockchain H × List H} (h : insertRecursivelyAux E n s b out = some r)
    (hb : E.hash b ∉ s.hashToBlock) : r.1.hashToBlock.lookup (E.hash b) = some b := by
  cases n with
  | zero => simp [insertRecursivelyAux] at h
  | succ n =>
    rcases insertRecursivelyAux_succ.mp h with ⟨hc, -⟩ | ⟨-, s₁, hs₁, ⟨-, rfl⟩ | ⟨cs, -, hfold⟩⟩
    · exact absurd hc hb
    · obtain ⟨_, _, -, -, hB, -⟩ := insert_eq_some.mp hs₁; simp [hB]
    · obtain ⟨_, _, -, -, hB, -⟩ := insert_eq_some.mp hs₁
      exact foldlM_inv (fun acc => acc.1.hashToBlock.lookup (E.hash b) = some b)
        (fun _ _ _ _ hm h' => (insertRecursivelyAux_extends h').block _ _ hm) (by simp [hB]) hfold

/-! ## Promotion -/

variable (E) in
/-- **Drained.**  Every block that waited in `s` under a hash that `r` stores and `s` did not
    is stored in `r`. -/
def Drained (s r : Blockchain H) : Prop :=
  ∀ p, p ∈ r.hashToBlock → p ∉ s.hashToBlock →
    ∀ c ∈ (s.orphanBuffer.lookup p).getD [], E.hash c ∈ r.hashToBlock

theorem Drained.trans {s t r : Blockchain H} (hd : Drained E s t) (hx : Extends s t)
    (hy : Extends t r) (hd' : Drained E t r) : Drained E s r := by
  intro p hp hps c hc
  by_cases hpt : p ∈ t.hashToBlock
  · exact hy.mem (hd p hpt hps c hc)
  · exact hd' p hp hpt c (by rwa [hx.orphan_of_not_mem hpt])

/-- **Promotion law.**  A call stores every block that waited for a hash it newly stored —
    the entry of its own block, and, through the nested calls, transitively every entry below. -/
theorem insertRecursivelyAux_drained :
    ∀ n s b out r, insertRecursivelyAux E n s b out = some r → Drained E s r.1 := by
  intro n
  induction n with
  | zero => intro s b out r h; simp [insertRecursivelyAux] at h
  | succ n ih =>
    intro s b out r h
    rcases insertRecursivelyAux_succ.mp h with ⟨-, rfl⟩ | ⟨-, s₁, hs₁, ⟨hnone, rfl⟩ | ⟨cs, hcs, hfold⟩⟩
    · exact fun p hp hps => absurd hp hps
    · -- only the block itself is new, and nothing waited for it
      obtain ⟨_, _, -, -, hB, -, -, -, hO, -⟩ := insert_eq_some.mp hs₁
      intro p hp hps c hc
      rcases Finmap.mem_insert.mp (hB ▸ hp) with rfl | hp
      · rw [← hO, hnone] at hc; simp at hc
      · exact absurd hp hps
    · -- the loop stores every child, and drains whatever its own calls newly store
      obtain ⟨_, _, -, -, hB, -, -, -, hO, -⟩ := insert_eq_some.mp hs₁
      have hkids : ∀ c ∈ cs, E.hash c ∈ r.1.hashToBlock :=
        foldlM_post (fun c acc => E.hash c ∈ acc.1.hashToBlock)
          (fun _ _ _ _ h' => insertRecursivelyAux_mem h')
          (fun _ _ _ _ _ hm h' => (insertRecursivelyAux_extends h').mem hm) hfold
      have hloop := foldlM_inv
        (fun acc => Extends { s₁ with orphanBuffer := s₁.orphanBuffer.erase (E.hash b) } acc.1 ∧
          Drained E { s₁ with orphanBuffer := s₁.orphanBuffer.erase (E.hash b) } acc.1)
        (fun acc c acc' _ hI h' => ⟨hI.1.trans (insertRecursivelyAux_extends h'),
          hI.2.trans hI.1 (insertRecursivelyAux_extends h') (ih _ _ _ _ h')⟩)
        ⟨Extends.refl _, fun p hp hps => absurd hp hps⟩ hfold
      intro p hp hps c hc
      by_cases hpb : p = E.hash b
      · subst hpb; rw [← hO, hcs] at hc; exact hkids c hc
      · refine hloop.2 p hp (by simp [hB, hpb, hps]) c ?_
        simpa [Finmap.lookup_erase_ne hpb, hO] using hc

/-! ## The depth bound is never reached -/

/-- Taking out the entry of a present key leaves one key fewer. -/
theorem card_keys_erase {s : Blockchain H} {p : H} (hp : p ∈ s.orphanBuffer) :
    (s.orphanBuffer.erase p).keys.card + 1 = s.orphanBuffer.keys.card := by
  rw [Finmap.keys_erase, Finset.card_erase_add_one (Finmap.mem_keys.mpr hp)]

/-- A store the loop reaches has fewer buffer keys than the caller's: the loop runs after an
    entry was taken out, and calls never add a key. -/
theorem card_lt_of_subset_erase {s s₁ t : Blockchain H} {b : Block H} {cs : List (Block H)}
    (hs₁ : s.insert E b = some s₁) (hcs : s₁.orphanBuffer.lookup (E.hash b) = some cs)
    (hk : t.orphanBuffer.keys ⊆ (s₁.orphanBuffer.erase (E.hash b)).keys) :
    t.orphanBuffer.keys.card < s.orphanBuffer.keys.card := by
  obtain ⟨_, _, -, -, -, -, -, -, hO, -⟩ := insert_eq_some.mp hs₁
  have := card_keys_erase (Finmap.mem_of_lookup_eq_some hcs)
  have := Finset.card_le_card hk
  rw [hO] at *
  omega

/-- One level of the recursion, with its nested calls replaced by any `g` that agrees with them
    on every store the loop reaches. -/
theorem insertRecursivelyAux_succ_eq {n : Nat} {s : Blockchain H} {b : Block H} {out : List H}
    (g : Blockchain H × List H → Block H → Option (Blockchain H × List H))
    (hg : ∀ s₁ cs acc c, s.insert E b = some s₁ → s₁.orphanBuffer.lookup (E.hash b) = some cs →
      acc.1.orphanBuffer.keys ⊆ (s₁.orphanBuffer.erase (E.hash b)).keys →
      insertRecursivelyAux E n acc.1 c acc.2 = g acc c) :
    insertRecursivelyAux E (n + 1) s b out =
      (if s.containsBlock (E.hash b) then some (s, out) else do
        let s ← s.insert E b
        let out := out ++ [E.hash b]
        match s.orphanBuffer.lookup (E.hash b) with
        | none => pure (s, out)
        | some children =>
          children.foldlM g ({ s with orphanBuffer := s.orphanBuffer.erase (E.hash b) }, out)) := by
  rw [insertRecursivelyAux]
  split
  · rfl
  · rcases hs₁ : s.insert E b with _ | s₁
    · rfl
    · simp only [Option.bind_eq_bind, Option.some_bind]
      split
      · rfl
      · rename_i cs hcs
        exact foldlM_congr
          (fun acc => acc.1.orphanBuffer.keys ⊆ (s₁.orphanBuffer.erase (E.hash b)).keys)
          (fun acc c _ hk => hg s₁ cs acc c hs₁ hcs hk)
          (fun _ _ _ _ hk h' => (insertRecursivelyAux_extends h').keys_subset.trans hk)
          (subset_refl _)

/-- **Fuel irrelevance.**  Any two depth bounds above the number of orphan-buffer keys compute
    the same result: every nested call runs on a buffer with one key fewer than its caller's. -/
theorem insertRecursivelyAux_fuel :
    ∀ n m s b out, s.orphanBuffer.keys.card < n → s.orphanBuffer.keys.card < m →
      insertRecursivelyAux E n s b out = insertRecursivelyAux E m s b out := by
  intro n
  induction n with
  | zero => intro m s b out hn; omega
  | succ n ih =>
    intro m s b out hn hm
    obtain ⟨m, rfl⟩ : ∃ k, m = k + 1 := ⟨m - 1, by omega⟩
    rw [insertRecursivelyAux_succ_eq (fun acc c => insertRecursivelyAux E m acc.1 c acc.2)
        fun _ _ _ _ hs₁ hcs hk => have := card_lt_of_subset_erase hs₁ hcs hk
          ih m _ _ _ (by omega) (by omega),
      insertRecursivelyAux_succ_eq _ fun _ _ _ _ _ _ _ => rfl]

/-- **The source's recursion.**  `insertRecursively` satisfies the equation of
    `insert_recursively`, with itself in the loop over the removed children. -/
theorem insertRecursively_eq (s : Blockchain H) (b : Block H) (out : List H) :
    insertRecursively E s b out =
      (if s.containsBlock (E.hash b) then some (s, out) else do
        let s ← s.insert E b
        let out := out ++ [E.hash b]
        match s.orphanBuffer.lookup (E.hash b) with
        | none => pure (s, out)
        | some children =>
          children.foldlM (fun acc child => insertRecursively E acc.1 child acc.2)
            ({ s with orphanBuffer := s.orphanBuffer.erase (E.hash b) }, out)) :=
  insertRecursivelyAux_succ_eq _ fun _ _ _ _ hs₁ hcs hk =>
    insertRecursivelyAux_fuel _ _ _ _ _ (card_lt_of_subset_erase hs₁ hcs hk) (Nat.lt_succ_self _)

end Blockchain

end PowNode
