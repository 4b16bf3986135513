/-
  FORK CHOICE (spec §3: "tie-breaking is strictly first-seen").  `insert` moves the tip only to
  a STRICTLY higher block, and only inserts move it.  So, reading the blocks in the order they
  entered the store — genesis, then each `insert`, which is the order the run announces them —
  the tip is the FIRST block of maximal height.

  `FirstSeen` is that statement against a log of insertions; it is kept by every insert of a
  block that is not stored (the one real case, `FirstSeen.insert`), so by every run
  (`run_inv`), the miner's inserts being fresh by `candidate_fresh`.  Between two states of a
  run the tip then never falls, and it moves on a tie never: the first block of a height that
  has not grown is still the first (`first_unique`).
-/
import PowNode.Frame

namespace PowNode

variable {H : Type} [LinearOrder H] {E : Env H}

/-- **First seen.**  `log` lists the stored keys once each, in the order they were inserted, and
    every block before the tip is strictly lower than the tip. -/
structure FirstSeen (s : Blockchain H) (log : List H) : Prop where
  nodup : log.Nodup
  keys : ∀ h, h ∈ s.hashToBlock ↔ h ∈ log
  tip : ∃ n l₁ l₂, s.hashToHeight.lookup s.tip = some n ∧ log = l₁ ++ s.tip :: l₂ ∧
    ∀ h ∈ l₁, ∀ m, s.hashToHeight.lookup h = some m → m < n

namespace FirstSeen

variable {s s' : Blockchain H} {log : List H}

theorem congr (hf : FirstSeen s log) (hB : s'.hashToBlock = s.hashToBlock)
    (hH : s'.hashToHeight = s.hashToHeight) (hT : s'.tip = s.tip) : FirstSeen s' log :=
  ⟨hf.nodup, hB ▸ hf.keys, hT ▸ hH ▸ hf.tip⟩

/-- **The one real case.**  Inserting a block that is not stored appends it to the log; it
    becomes the tip exactly when it is strictly higher than every block before it. -/
theorem insert (hw : WellFormed E s) (hf : FirstSeen s log) {b : Block H}
    (hc : E.hash b ∉ s.hashToBlock) (hins : s.insert E b = some s') :
    FirstSeen s' (log ++ [E.hash b]) := by
  obtain ⟨n, t, -, ht, hB, hH, hT, -⟩ := Blockchain.insert_eq_some.mp hins
  have hne : ∀ h ∈ log, h ≠ E.hash b := fun h hh he => hc (he ▸ (hf.keys h).mpr hh)
  have hold : ∀ h ∈ log, s'.hashToHeight.lookup h = s.hashToHeight.lookup h := fun h hh => by
    rw [hH, Finmap.lookup_insert_of_ne _ (hne h hh)]
  obtain ⟨N, l₁, l₂, hN, hlog, hlow⟩ := hf.tip
  have htip : s.tip ∈ log := hlog ▸ List.mem_append_right _ (List.mem_cons_self _ _)
  rw [Finmap.lookup_insert_of_ne _ (hne _ htip), hN, Option.some.injEq] at ht
  subst ht
  refine ⟨List.nodup_append.mpr ⟨hf.nodup, List.nodup_singleton _,
    fun x hx hx' => hne x hx (List.mem_singleton.mp hx')⟩, fun h => ?_, ?_⟩
  · rw [hB, Finmap.mem_insert, hf.keys, List.mem_append, List.mem_singleton, or_comm]
  · rw [hT]
    by_cases hgt : n + 1 > N
    · rw [if_pos hgt]
      -- strictly higher: the new block is the tip, and everything before it is lower
      refine ⟨n + 1, log, [], by rw [hH, Finmap.lookup_insert], rfl, fun h hh m hm => ?_⟩
      rw [hold h hh] at hm
      obtain ⟨_, hN', hmax⟩ := hw.tip
      rw [hN, Option.some.injEq] at hN'; subst hN'
      have := hmax h m hm
      omega
    · rw [if_neg hgt]
      -- no higher: the tip and everything before it stay
      refine ⟨N, l₁, l₂ ++ [E.hash b], by rw [hold _ htip, hN], by rw [hlog]; simp,
        fun h hh m hm => hlow h hh m ?_⟩
      rwa [hold h (hlog ▸ List.mem_append_left _ hh)] at hm

/-- Through `insert_recursively`. -/
theorem insertRecursivelyAux {n : Nat} {b : Block H} {out : List H} {r : Blockchain H × List H}
    (hw : WellFormed E s) (hf : FirstSeen s (log ++ out))
    (h : Blockchain.insertRecursivelyAux E n s b out = some r) : FirstSeen r.1 (log ++ r.2) :=
  (Blockchain.insertRecursivelyAux_inv (fun t o => WellFormed E t ∧ FirstSeen t (log ++ o))
    (fun _ => True)
    (fun _ _ _ _ ⟨hw', hf'⟩ _ hc hins =>
      have h₁ : WellFormed E _ ∧ FirstSeen _ _ :=
        ⟨hw'.insert hc hins, by rw [← List.append_assoc]; exact hf'.insert hw' hc hins⟩
      ⟨fun _ => h₁, fun _ _ => ⟨fun _ _ => trivial,
        h₁.1.congr rfl rfl rfl, h₁.2.congr rfl rfl rfl⟩⟩)
    n s b out r ⟨hw, hf⟩ trivial h).2

theorem receiveBlock {now : Nat} {b : Block H} {relay missing relay' missing' : List H}
    (hw : WellFormed E s) (hf : FirstSeen s (log ++ relay))
    (h : PowNode.receiveBlock E now (s, relay, missing) b = some (s', relay', missing')) :
    FirstSeen s' (log ++ relay') :=
  receiveBlock_elim (fun t r _ => FirstSeen t (log ++ r)) h
    (fun _ _ => hf.congr (by simp) (by simp) (by simp))
    (fun _ _ _ _ => hf.congr (by simp) (by simp) (by simp))
    (fun _ _ _ _ _ _ hins => (hf.congr (by simp) (by simp) (by simp)).insertRecursivelyAux
      (hw.congr (by simp) (by simp) (by simp)) hins)

theorem mine (hw : WellFormed E s) (hE : E.IdealHash) (hf : FirstSeen s log)
    {pool pool' : List SignedTransaction} {nonce : UInt32} {timestamp : Nat}
    {out : List (Outbound H)} (h : PowNode.mine E s pool nonce timestamp = some (s', pool', out)) :
    FirstSeen s' (log ++ announced out) := by
  obtain ⟨b, rest, hc, ⟨-, s₁, hs₁, rfl, -, rfl⟩ | ⟨-, rfl, -, rfl⟩⟩ := mine_spec h
  · exact (hf.insert hw (candidate_fresh hw hE hc) hs₁).congr rfl rfl rfl
  · simpa using hf

theorem new : FirstSeen (Blockchain.new E) [E.hash E.genesis] :=
  ⟨List.nodup_singleton _, fun h => by simp [Blockchain.new, Finmap.not_mem_empty],
    ⟨0, [], [], by simp [Blockchain.new], rfl, fun _ h => absurd h (List.not_mem_nil _)⟩⟩

end FirstSeen

end PowNode
