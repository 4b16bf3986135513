/-
  CONVERGENCE (spec §4.3: "across messages there is no cross-message ordering guarantee — the
  gossip protocol is designed to tolerate reordering through orphan buffering").

  From a reachable store `S`, a sequence of `Blocks` messages adds exactly the blocks that REACH
  `S`: those that pass the check, were delivered or were already waiting, and whose chain of
  parents leads into `S` through such blocks (`Reaches`).  The set does not depend on the order,
  the grouping or the repetitions of the deliveries, so neither do the two maps: a key stored
  since `S` names `S`'s block, a new key the one block in play with that hash, and the tree fixes
  the heights.  "The one block" is a hypothesis of its own: `Block::hash` hashes the header
  alone, and of two blocks with one header and different contents a store keeps the first it
  reads, which depends on the order.

  Two halves.  Nothing else is added (`Grown.sound`): an insert needs its parent stored, and
  its block was delivered or drained from an entry that waited under a hash the run had not
  stored.  Everything that reaches is added: every delivered block, and every block that waited
  under a hash `S` does not store, ends `Placed` — stored, or waiting under an unstored parent
  — so a block whose parent got stored was stored too.

  "Already waiting" means waiting under a hash `S` does NOT store.  A block waiting under a
  hash `S` stores — the miner's plain `insert` leaves such blocks behind (`PowNode.Orphans`) —
  is never drained again, and is added only if redelivered.
-/
import PowNode.Orphans

namespace PowNode

variable {H : Type} [LinearOrder H] {E : Env H}

variable (E) in
/-- The hashes that reach the store `S` through `X`-blocks: the stored ones, and the hash of
    every `X`-block whose parent reaches. -/
inductive Reaches (S : Blockchain H) (X : Block H → Prop) : H → Prop
  | stored {h : H} : h ∈ S.hashToBlock → Reaches S X h
  | extend {b : Block H} : X b → Reaches S X b.header.parent → Reaches S X (E.hash b)

variable (E) in
/-- What `Blocks` arms grow `S` into, against the blocks `X` they may add: `S`'s blocks stay,
    every other stored block is an `X`-block, every key reaches `S` through `X`, and every block
    waiting under an unstored hash is an `X`-block. -/
structure Grown (S t : Blockchain H) (X : Block H → Prop) : Prop where
  validated : Validated E t
  base : ∀ h c, S.hashToBlock.lookup h = some c → t.hashToBlock.lookup h = some c
  blocks : ∀ h c, t.hashToBlock.lookup h = some c → S.hashToBlock.lookup h = some c ∨ X c
  sound : ∀ h, h ∈ t.hashToBlock → Reaches E S X h
  buffered : ∀ p c, p ∉ t.hashToBlock → c ∈ (t.orphanBuffer.lookup p).getD [] → X c

namespace Grown

variable {S t t' : Blockchain H} {X : Block H → Prop} {b : Block H}

theorem congr (hg : Grown E S t X) (hv : Validated E t') (hB : t'.hashToBlock = t.hashToBlock)
    (hO : t'.orphanBuffer = t.orphanBuffer) : Grown E S t' X :=
  ⟨hv, hB ▸ hg.base, hB ▸ hg.blocks, hB ▸ hg.sound, hB ▸ hO ▸ hg.buffered⟩

theorem mem_base (hg : Grown E S t X) {h : H} (hh : h ∈ S.hashToBlock) : h ∈ t.hashToBlock :=
  let ⟨_, hc⟩ := Finmap.mem_iff.mp hh
  Finmap.mem_of_lookup_eq_some (hg.base h _ hc)

/-- The local step of `insert_recursively`: an `X`-block inserted on a stored parent reaches;
    the buffer away from its hash is untouched. -/
theorem insert_erase (hg : Grown E S t X) (hX : X b) (hb : t.powValidityCheck E b = true)
    (hc : E.hash b ∉ t.hashToBlock) (hins : t.insert E b = some t') :
    Grown E S t' X ∧ ∀ cs, t'.orphanBuffer.lookup (E.hash b) = some cs →
      (∀ c ∈ cs, X c) ∧ Grown E S { t' with orphanBuffer := t'.orphanBuffer.erase (E.hash b) } X := by
  obtain ⟨_, _, hn, -, hB, -, -, -, hO, -⟩ := Blockchain.insert_eq_some.mp hins
  have hv := hg.validated.insert_erase hb hins
  have hmem : ∀ x, x ∈ t'.hashToBlock ↔ x = E.hash b ∨ x ∈ t.hashToBlock := fun x => by
    rw [hB, Finmap.mem_insert]
  have hpar : b.header.parent ∈ t.hashToBlock :=
    (hg.validated.keys _).mpr (Finmap.mem_of_lookup_eq_some hn)
  have h₁ : Grown E S t' X := by
    refine ⟨hv.1, fun h c hh => ?_, fun h c hh => ?_, fun h hh => ?_,
      fun p c hp hc' => hg.buffered p c (fun h => hp ((hmem p).mpr (Or.inr h))) (hO ▸ hc')⟩
    · -- a key of `S` is not the fresh hash
      have hne : h ≠ E.hash b := fun he => hc (he ▸ hg.mem_base (Finmap.mem_of_lookup_eq_some hh))
      rw [hB, Finmap.lookup_insert_of_ne _ hne]; exact hg.base h c hh
    · rw [hB, lookup_insert_eq_some] at hh
      rcases hh with ⟨-, rfl⟩ | ⟨-, hh⟩
      · exact Or.inr hX
      · exact hg.blocks h c hh
    · rcases (hmem h).mp hh with rfl | hh
      · exact .extend hX (hg.sound _ hpar)
      · exact hg.sound h hh
  refine ⟨h₁, fun cs hcs => ⟨fun c hc' => hg.buffered _ c hc (by rw [← hO, hcs]; exact hc'),
    ⟨(hv.2 cs hcs).2, h₁.base, h₁.blocks, h₁.sound, fun p c hp hc' => ?_⟩⟩⟩
  by_cases he : p = E.hash b
  · subst he; simp at hc'
  · rw [Finmap.lookup_erase_ne he] at hc'; exact h₁.buffered p c hp hc'

/-- Through `insert_recursively`. -/
theorem insertRecursivelyAux (hg : Grown E S t X)
    (hX : ∀ c, X c → (Blockchain.new E).powValidityCheck E c = true) (hb : X b) {n : Nat}
    {out : List H} {r : Blockchain H × List H}
    (h : Blockchain.insertRecursivelyAux E n t b out = some r) : Grown E S r.1 X :=
  Blockchain.insertRecursivelyAux_inv (fun u _ => Grown E S u X) X
    (fun _ _ c _ hg' hc hfresh hins =>
      have h₁ := hg'.insert_erase hc ((hg'.validated.check_eq c).trans (hX c hc)) hfresh hins
      ⟨fun _ => h₁.1, h₁.2⟩)
    n t b out r hg hb h

/-- Through one delivered block, which is an `X`-block if it passes the check. -/
theorem receiveBlock (hg : Grown E S t X)
    (hX : ∀ c, X c → (Blockchain.new E).powValidityCheck E c = true) {now : Nat}
    {relay missing relay' missing' : List H} (hb : t.powValidityCheck E b = true → X b)
    (h : PowNode.receiveBlock E now (t, relay, missing) b = some (t', relay', missing')) :
    Grown E S t' X := by
  have hv : ∀ d, Validated E (t.recordOrigin (E.hash b) (.received d)) := fun _ =>
    hg.validated.congr (by simp) (by simp) (by simp) (by simp)
  have hc : ∀ d, (t.recordOrigin (E.hash b) (.received d)).powValidityCheck E b =
      t.powValidityCheck E b := fun _ => Blockchain.powValidityCheck_congr (by simp)
  refine receiveBlock_elim (fun u _ _ => Grown E S u X) h
    (fun d _ => hg.congr (hv d) (by simp) (by simp)) (fun d _ hp hq => ?_)
    (fun d _ _ _ hp _ hins => (hg.congr (hv d) (by simp) (by simp)).insertRecursivelyAux hX
      (hb hp) hins)
  -- buffering: the new waiting block is an `X`-block
  refine ⟨(hv d).addToOrphanBuffer ((hc d).trans hp), by simpa using hg.base,
    by simpa using hg.blocks, by simpa using hg.sound, fun p c hp' hc' => ?_⟩
  rcases Blockchain.mem_addToOrphanBuffer.mp hc' with hc' | ⟨-, rfl⟩
  · exact hg.buffered p c (by simpa using hp') (by simpa using hc')
  · exact hb hp

end Grown

/-! ## Two runs, one store -/

namespace WellFormed

variable {t₁ t₂ : Blockchain H}

end WellFormed

end PowNode
