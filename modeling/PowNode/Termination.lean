/-
  TERMINATION of `insert_recursively`, for EVERY store and EVERY hash function.

  `insertRecursively` recurses on a depth bound, so it is total by construction; what needs
  showing is that the bound is not what makes it return.  Here the calls are given WITHOUT a
  bound, as a relation (`Calls`) on the list of calls still to make: a call on a stored block
  returns; a call that inserts a block some children waited for takes their entry out and puts
  them IN FRONT of the rest, since its `for` loop runs them before it returns to its caller's.

  1. Every call lowers "calls still to make + blocks in the orphan buffer" by one: a skip or a
     childless insert takes a block off the list, and a call that takes out an entry moves its
     blocks from the buffer onto the list (`bufferedCount_erase`); `insert` never touches the
     buffer.  So every list of calls runs to its end, a panic or a return, in at most that
     many calls (`calls_exist`) — cycles of parent links in the buffer included — and the run
     is unique (`Calls.det`).
  2. The run computes what `insertRecursively` computes (`Calls.foldlM_eq`): a `none` of the
     model is an `unwrap` panic, never the depth bound.
-/
import PowNode.InsertRecursively
import Mathlib.Algebra.BigOperators.Group.Finset

namespace PowNode

variable {H : Type} [LinearOrder H] {E : Env H}

namespace Blockchain

/-- The blocks waiting in the orphan buffer, counted with repetitions. -/
def bufferedCount (s : Blockchain H) : Nat :=
  ∑ p ∈ s.orphanBuffer.keys, ((s.orphanBuffer.lookup p).getD []).length

/-- Taking out an entry takes its blocks out of the count. -/
theorem bufferedCount_erase {s : Blockchain H} {p : H} {cs : List (Block H)}
    (hp : s.orphanBuffer.lookup p = some cs) :
    bufferedCount { s with orphanBuffer := s.orphanBuffer.erase p } + cs.length =
      s.bufferedCount := by
  have hmem : p ∈ s.orphanBuffer.keys := Finmap.mem_keys.mpr (Finmap.mem_of_lookup_eq_some hp)
  rw [bufferedCount, bufferedCount, ← Finset.sum_erase_add _ _ hmem, hp, Option.getD_some]
  refine congrArg (· + cs.length) (Finset.sum_congr (Finmap.keys_erase _ _) fun q hq => ?_)
  rw [Finmap.lookup_erase_ne (Finset.ne_of_mem_erase hq)]

/-- `insert` leaves the count alone. -/
theorem bufferedCount_insert {s s₁ : Blockchain H} {b : Block H} (h : s.insert E b = some s₁) :
    s₁.bufferedCount = s.bufferedCount := by
  obtain ⟨_, _, -, -, -, -, -, -, hO, -⟩ := insert_eq_some.mp h
  rw [bufferedCount, bufferedCount, hO]

end Blockchain

open Blockchain

/-! ## The calls, without a bound -/

variable (E) in
/-- **The calls of `insert_recursively`.**  `Calls s out work r k`: calling
    `insert_recursively(b, out)` on the blocks `b` of `work` in turn, from the store `s`, ends
    with `r` (`none`: the `unwrap` of a parent height in `insert` panicked) after `k` calls. -/
inductive Calls : Blockchain H → List H → List (Block H) → Option (Blockchain H × List H) →
    Nat → Prop
  | done {s out} : Calls s out [] (some (s, out)) 0
  | skip {s out b rest r k} : E.hash b ∈ s.hashToBlock → Calls s out rest r k →
      Calls s out (b :: rest) r (k + 1)
  | panic {s out b rest} : E.hash b ∉ s.hashToBlock → s.insert E b = none →
      Calls s out (b :: rest) none 1
  | leaf {s s₁ out b rest r k} : E.hash b ∉ s.hashToBlock → s.insert E b = some s₁ →
      s₁.orphanBuffer.lookup (E.hash b) = none → Calls s₁ (out ++ [E.hash b]) rest r k →
      Calls s out (b :: rest) r (k + 1)
  | node {s s₁ out b rest cs r k} : E.hash b ∉ s.hashToBlock → s.insert E b = some s₁ →
      s₁.orphanBuffer.lookup (E.hash b) = some cs →
      Calls { s₁ with orphanBuffer := s₁.orphanBuffer.erase (E.hash b) } (out ++ [E.hash b])
        (cs ++ rest) r k →
      Calls s out (b :: rest) r (k + 1)

/-- **Termination, with its bound.**  Every list of calls runs to its end, in at most as many
    calls as it has blocks plus the blocks the buffer holds. -/
theorem calls_exist : ∀ n (s : Blockchain H) out work, work.length + s.bufferedCount ≤ n →
    ∃ r k, Calls E s out work r k ∧ k ≤ work.length + s.bufferedCount := by
  intro n
  induction n with
  | zero =>
    intro s out work hn
    obtain rfl : work = [] := List.eq_nil_of_length_eq_zero (by omega)
    exact ⟨_, 0, .done, Nat.zero_le _⟩
  | succ n ih =>
    intro s out work hn
    cases work with
    | nil => exact ⟨_, 0, .done, Nat.zero_le _⟩
    | cons b rest =>
      rw [List.length_cons] at hn ⊢
      by_cases hb : E.hash b ∈ s.hashToBlock
      · obtain ⟨r, k, h, hk⟩ := ih s out rest (by omega)
        exact ⟨r, k + 1, .skip hb h, by omega⟩
      rcases hi : s.insert E b with _ | s₁
      · exact ⟨none, 1, .panic hb hi, by omega⟩
      have hN := bufferedCount_insert hi
      rcases hl : s₁.orphanBuffer.lookup (E.hash b) with _ | cs
      · obtain ⟨r, k, h, hk⟩ := ih s₁ (out ++ [E.hash b]) rest (by omega)
        exact ⟨r, k + 1, .leaf hb hi hl h, by omega⟩
      · -- the children move from the buffer onto the list
        have hE := bufferedCount_erase hl
        obtain ⟨r, k, h, hk⟩ := ih { s₁ with orphanBuffer := s₁.orphanBuffer.erase (E.hash b) }
          (out ++ [E.hash b]) (cs ++ rest) (by rw [List.length_append]; omega)
        refine ⟨r, k + 1, .node hb hi hl h, ?_⟩
        rw [List.length_append] at hk
        omega

/-- **The run is unique**: its end and its number of calls. -/
theorem Calls.det {s : Blockchain H} {out : List H} {work : List (Block H)}
    {r r' : Option (Blockchain H × List H)} {k k' : Nat} (h : Calls E s out work r k)
    (h' : Calls E s out work r' k') : r' = r ∧ k' = k := by
  induction h generalizing r' k' with
  | done => cases h'; exact ⟨rfl, rfl⟩
  | skip hb _ ih =>
    cases h' with
    | skip _ h' => exact (ih h').imp id (congrArg (· + 1))
    | _ => contradiction
  | panic hb hi =>
    cases h' with
    | panic => exact ⟨rfl, rfl⟩
    | skip hb' => exact absurd hb' hb
    | leaf _ hi' | node _ hi' => cases hi.symm.trans hi'
  | leaf hb hi hl _ ih =>
    cases h' with
    | skip hb' => exact absurd hb' hb
    | panic _ hi' => cases hi.symm.trans hi'
    | leaf _ hi' _ h' =>
      cases Option.some.inj (hi.symm.trans hi')
      exact (ih h').imp id (congrArg (· + 1))
    | node _ hi' hl' => cases Option.some.inj (hi.symm.trans hi'); cases hl.symm.trans hl'
  | node hb hi hl _ ih =>
    cases h' with
    | skip hb' => exact absurd hb' hb
    | panic _ hi' => cases hi.symm.trans hi'
    | leaf _ hi' hl' => cases Option.some.inj (hi.symm.trans hi'); cases hl.symm.trans hl'
    | node _ hi' hl' h' =>
      cases Option.some.inj (hi.symm.trans hi')
      cases Option.some.inj (hl.symm.trans hl')
      exact (ih h').imp id (congrArg (· + 1))

/-! ## The run is what the model computes -/

section Model

/-! The four ends of one call, read off the source's recursion equation. -/

variable {s s₁ : Blockchain H} {b : Block H} {out : List H}

theorem insertRecursively_stored (hb : E.hash b ∈ s.hashToBlock) :
    insertRecursively E s b out = some (s, out) := by
  rw [insertRecursively_eq]; simp [hb]

theorem insertRecursively_panic (hb : E.hash b ∉ s.hashToBlock) (hi : s.insert E b = none) :
    insertRecursively E s b out = none := by
  rw [insertRecursively_eq]; simp [hb, hi]

theorem insertRecursively_leaf (hb : E.hash b ∉ s.hashToBlock) (hi : s.insert E b = some s₁)
    (hl : s₁.orphanBuffer.lookup (E.hash b) = none) :
    insertRecursively E s b out = some (s₁, out ++ [E.hash b]) := by
  rw [insertRecursively_eq]; simp [hb, hi, hl]

theorem insertRecursively_node {cs : List (Block H)} (hb : E.hash b ∉ s.hashToBlock)
    (hi : s.insert E b = some s₁) (hl : s₁.orphanBuffer.lookup (E.hash b) = some cs) :
    insertRecursively E s b out =
      cs.foldlM (fun acc c => insertRecursively E acc.1 c acc.2)
        ({ s₁ with orphanBuffer := s₁.orphanBuffer.erase (E.hash b) }, out ++ [E.hash b]) := by
  rw [insertRecursively_eq]; simp [hb, hi, hl]

end Model

/-- **Refinement.**  The calls of a run are the source's loop of `insert_recursively` calls. -/
theorem Calls.foldlM_eq {s : Blockchain H} {out : List H} {work : List (Block H)}
    {r : Option (Blockchain H × List H)} {k : Nat} (h : Calls E s out work r k) :
    work.foldlM (fun acc c => insertRecursively E acc.1 c acc.2) (s, out) = r := by
  induction h with
  | done => rfl
  | skip hb _ ih => rw [List.foldlM_cons, insertRecursively_stored hb]; exact ih
  | panic hb hi => rw [List.foldlM_cons, insertRecursively_panic hb hi]; rfl
  | leaf hb hi hl _ ih => rw [List.foldlM_cons, insertRecursively_leaf hb hi hl]; exact ih
  | node hb hi hl _ ih =>
    rw [List.foldlM_cons, insertRecursively_node hb hi hl, ← List.foldlM_append]; exact ih

/-- **`insert_recursively` terminates.**  For every store, every block and every hash function
    — whatever the orphan buffer holds, cycles of parent links included — the call has a run,
    one only, of at most `1 + N` calls, `N` the blocks in the buffer; and it ends with what
    `insertRecursively` returns, so the model's depth bound is never what stops it. -/
theorem insertRecursively_terminates (s : Blockchain H) (b : Block H) (out : List H) :
    ∃ r k, Calls E s out [b] r k ∧ (∀ r' k', Calls E s out [b] r' k' → r' = r ∧ k' = k) ∧
      k ≤ 1 + s.bufferedCount ∧ insertRecursively E s b out = r := by
  obtain ⟨r, k, h, hk⟩ := calls_exist _ s out [b] le_rfl
  exact ⟨r, k, h, fun _ _ h' => h.det h', by simpa [Nat.add_comm] using hk,
    by simpa using h.foldlM_eq⟩

end PowNode
