/-
  The LONGEST CHAIN: `all_blocks_in_longest_chain` in every reachable state, and what one
  successful mining step does to it.

      let mut curr_hash = self.tip;
      let mut hashes_backward = vec![curr_hash];
      while *self.hash_to_height.get(&curr_hash).unwrap() > 0 {
          curr_hash = self.hash_to_block.get(&curr_hash).unwrap().header.parent;
          hashes_backward.push(curr_hash);
      }
      hashes_backward.into_iter().rev().collect()

  1. THE WALK.  In a well-formed store, from a key at height `k` the loop makes EXACTLY `k`
     iterations: each lands on the parent, one height lower, and only height 0 exits
     (`walkBack_spec`, `walkBack_eq_none`).  What it pushed, reversed, CLIMBS from genesis to
     the key: the `i`-th hash is at height `i`, and each hash after the first is the hash of a
     stored block whose parent is the hash before it (`Climbs`).
  2. THE MINER'S STEP.  The mined block extends the tip, so it sits one above every stored
     block and becomes the tip; the walk from it makes one iteration into the old store and
     then walks the old chain, which the step keeps (`walkBack_congr`).
  3. Both need `Header::hash` ideal.  A mined block whose hash is genesis's overwrites
     genesis at height 1 with a block that is its own parent, and the loop never exits
     (`colliding_hash_walk_never_ends`).
-/
import PowNode.Frame

namespace PowNode

variable {H : Type} [LinearOrder H] {E : Env H}

namespace Blockchain

variable (E) in
/-- `y` is the hash of a stored block whose parent is `x`. -/
def Link (s : Blockchain H) (x y : H) : Prop :=
  ∃ c, s.hashToBlock.lookup y = some c ∧ E.hash c = y ∧ c.header.parent = x

variable (E) in
/-- `l` climbs the tree from genesis: its `i`-th hash is a key at height `i`, and every hash
    after the first is linked to the one before it. -/
structure Climbs (s : Blockchain H) (l : List H) : Prop where
  heights : l.map (fun x => s.hashToHeight.lookup x) = (List.range l.length).map some
  links : l.Chain' (s.Link E)

end Blockchain

open Blockchain

namespace Blockchain.Climbs

variable {s : Blockchain H} {l : List H}

/-- A key at height 0 climbs alone. -/
theorem single {x : H} (hx : s.hashToHeight.lookup x = some 0) : Climbs E s [x] :=
  ⟨by simp [hx]; rfl, List.chain'_singleton x⟩

/-- A climb goes on with a key linked to its top, one height up. -/
theorem snoc (hc : Climbs E s l) {x y : H} (hy : l.getLast? = some y) (hl : s.Link E y x)
    (hx : s.hashToHeight.lookup x = some l.length) : Climbs E s (l ++ [x]) := by
  refine ⟨?_, hc.links.append (List.chain'_singleton x) fun a ha b hb => ?_⟩
  · rw [List.map_append, hc.heights, List.length_append, List.length_singleton, List.range_succ,
      List.map_append]
    simp [hx]
  · rw [hy, Option.mem_some_iff] at ha
    rw [List.head?_cons, Option.mem_some_iff] at hb
    exact ha ▸ hb ▸ hl

/-- Heights along a climb are distinct, so are its hashes. -/
theorem nodup (hc : Climbs E s l) : l.Nodup :=
  List.Nodup.of_map _ (hc.heights ▸ (List.nodup_range _).map (Option.some_injective _))

/-- Every hash of a climb is stored. -/
theorem mem (hw : WellFormed E s) (hc : Climbs E s l) {x : H} (hx : x ∈ l) :
    x ∈ s.hashToBlock := by
  have hm := List.mem_map_of_mem (fun x => s.hashToHeight.lookup x) hx
  rw [hc.heights] at hm
  obtain ⟨i, -, hi⟩ := List.mem_map.mp hm
  exact (hw.keys x).mpr (Finmap.mem_of_lookup_eq_some hi.symm)

/-- A climb starts at genesis, the only key at height 0. -/
theorem head (hw : WellFormed E s) (hc : Climbs E s l) (hl : l ≠ []) :
    l.head? = some (E.hash E.genesis) := by
  obtain ⟨x, l, rfl⟩ := List.exists_cons_of_ne_nil hl
  have h := hc.heights
  rw [List.length_cons, List.range_succ_eq_map, List.map_cons, List.map_cons,
    List.cons.injEq] at h
  rw [List.head?_cons, hw.height_zero x h.1]

/-- The top of a climb sits at the height of its position. -/
theorem height_last {x : H} (hc : Climbs E s (l ++ [x])) :
    s.hashToHeight.lookup x = some l.length := by
  have h := hc.heights
  simp only [List.length_append, List.length_singleton, List.range_succ, List.map_append,
    List.map_cons, List.map_nil] at h
  exact List.singleton_inj.mp (List.append_inj h (by simp)).2

/-- The top of a climb is linked to the hash below it. -/
theorem link_last {x y : H} (hc : Climbs E s (l ++ [y] ++ [x])) : s.Link E y x :=
  (List.chain'_append.mp hc.links).2.2 y (by simp) x rfl

/-- A climb's lower part climbs. -/
theorem of_append {l₂ : List H} (hc : Climbs E s (l ++ l₂)) : Climbs E s l := by
  refine ⟨?_, hc.links.left_of_append⟩
  have h := congrArg (List.take l.length) hc.heights
  rwa [← List.map_take, List.take_left, ← List.map_take, List.take_range, List.length_append,
    Nat.min_eq_left (Nat.le_add_right _ _)] at h

end Blockchain.Climbs

/-! ## The walk -/

section Walk

variable {s : Blockchain H}

/-- **The loop, from a key at height `k`.**  With at least `k` iterations allowed it pushes the
    same hashes `p`, `k` of them, whatever it had pushed before; and `p` under the key, read
    from the bottom, climbs from genesis to it. -/
theorem walkBack_spec (hw : WellFormed E s) :
    ∀ k x, s.hashToHeight.lookup x = some k → ∃ p, p.length = k ∧ Climbs E s (x :: p).reverse ∧
      ∀ fuel acc, k ≤ fuel → s.walkBack fuel x acc = some (acc ++ p) := by
  intro k
  induction k with
  | zero =>
    intro x hx
    exact ⟨[], rfl, Climbs.single hx, fun _ _ _ => by rw [walkBack_of_height_zero hx, List.append_nil]⟩
  | succ k ih =>
    intro x hx
    obtain ⟨c, hc, hp⟩ := hw.parent_height hx
    obtain ⟨p, hlen, hcl, hwalk⟩ := ih _ hp
    refine ⟨c.header.parent :: p, by rw [List.length_cons, hlen], ?_, fun fuel acc hk => ?_⟩
    · -- the key sits on top of its parent's climb
      rw [List.reverse_cons]
      exact hcl.snoc (by rw [List.getLast?_reverse, List.head?_cons]) ⟨c, hc, hw.hash_eq x c hc, rfl⟩
        (by rw [List.length_reverse, List.length_cons, hlen, hx])
    · obtain ⟨f, rfl⟩ : ∃ f, fuel = f + 1 := ⟨fuel - 1, by omega⟩
      rw [walkBack_succ_of_height hx hc, hwalk f _ (by omega), List.append_assoc,
        List.singleton_append]

/-- With fewer iterations allowed than the height, the loop does not exit. -/
theorem walkBack_eq_none (hw : WellFormed E s) :
    ∀ fuel k x acc, s.hashToHeight.lookup x = some k → fuel < k → s.walkBack fuel x acc = none
  | _, 0, _, _, _, hk => absurd hk (Nat.not_lt_zero _)
  | 0, _ + 1, _, _, hx, _ => walkBack_zero_of_height hx
  | fuel + 1, k + 1, x, acc, hx, hk => by
    obtain ⟨c, hc, hp⟩ := hw.parent_height hx
    rw [walkBack_succ_of_height hx hc]
    exact walkBack_eq_none hw fuel k _ _ hp (by omega)

/-- **Exactly `k` iterations.**  From a key at height `k`, the loop returns within `fuel`
    iterations iff `k ≤ fuel`. -/
theorem walkBack_isSome_iff (hw : WellFormed E s) {k fuel : Nat} {x : H} {acc : List H}
    (hx : s.hashToHeight.lookup x = some k) : (s.walkBack fuel x acc).isSome ↔ k ≤ fuel := by
  refine ⟨fun h => Nat.not_lt.mp fun hlt => ?_, fun hk => ?_⟩
  · rw [walkBack_eq_none hw fuel k x acc hx hlt] at h; cases h
  · obtain ⟨p, -, -, hwalk⟩ := walkBack_spec hw k x hx
    rw [hwalk fuel acc hk]; rfl

/-- A key above height 0 whose stored block is its own parent: the loop never exits. -/
theorem walkBack_loop {x : H} {k : Nat} {c : Block H} (hx : s.hashToHeight.lookup x = some (k + 1))
    (hc : s.hashToBlock.lookup x = some c) (hp : c.header.parent = x) :
    ∀ fuel acc, s.walkBack fuel x acc = none
  | 0, _ => walkBack_zero_of_height hx
  | fuel + 1, acc => by rw [walkBack_succ_of_height hx hc, hp]; exact walkBack_loop hx hc hp fuel _

/-- In a well-formed store `all_blocks_in_longest_chain` returns, and what it returns climbs
    from genesis to the tip. -/
theorem allBlocksInLongestChain_climbs {s : Blockchain H} (hw : WellFormed E s) :
    ∃ l, s.allBlocksInLongestChain = some l ∧ Climbs E s l ∧ l.getLast? = some s.tip := by
  obtain ⟨n, hn, hlt⟩ := hw.tip_height_lt_blockCount
  obtain ⟨p, -, hcl, hwalk⟩ := walkBack_spec hw n s.tip hn
  refine ⟨(s.tip :: p).reverse, ?_, hcl, by rw [List.getLast?_reverse, List.head?_cons]⟩
  rw [allBlocksInLongestChain, hwalk _ _ hlt.le]
  rfl

end Walk

/-! ## In every reachable state -/

/-- **The longest chain.**  In every reachable state (`Header::hash` ideal) the loop of
    `all_blocks_in_longest_chain` makes exactly `hash_to_height[tip]` iterations: allowed any
    number of them, it exits iff that number is at least the tip's height.  It returns one hash
    per height from genesis up to the tip: distinct stored hashes, each after the first the hash
    of a stored block whose parent is the hash before it. -/
theorem reachable_longest_chain {s : Blockchain H} (hs : Reachable E s)
    (hE : E.IdealHash) :
    ∃ n l, s.hashToHeight.lookup s.tip = some n ∧
      (∀ fuel, (s.walkBack fuel s.tip [s.tip]).isSome ↔ n ≤ fuel) ∧
      s.allBlocksInLongestChain = some l ∧ l.length = n + 1 ∧
      l.head? = some (E.hash E.genesis) ∧ l.getLast? = some s.tip ∧ l.Nodup ∧
      (∀ x ∈ l, x ∈ s.hashToBlock) ∧ l.Chain' (s.Link E) := by
  have hw := hs.wellFormed hE
  obtain ⟨n, hn, hlt⟩ := hw.tip_height_lt_blockCount
  obtain ⟨p, hlen, hcl, hwalk⟩ := walkBack_spec hw n s.tip hn
  refine ⟨n, (s.tip :: p).reverse, hn, fun _ => walkBack_isSome_iff hw hn, ?_,
    by rw [List.length_reverse, List.length_cons, hlen], hcl.head hw (by simp),
    by rw [List.getLast?_reverse, List.head?_cons], hcl.nodup, fun _ hx => hcl.mem hw hx, hcl.links⟩
  rw [allBlocksInLongestChain, hwalk _ _ hlt.le]
  rfl

/-- The hypotheses hold after a fresh node has mined two blocks: the loop makes exactly two
    iterations and returns three linked hashes, genesis first. -/
theorem longest_chain_after_two_blocks :
    (sampleEnv true).IdealHash ∧ ∃ s, Reachable (sampleEnv true) s ∧
      s.hashToHeight.lookup s.tip = some 2 ∧
      (∀ fuel, (s.walkBack fuel s.tip [s.tip]).isSome ↔ 2 ≤ fuel) ∧
      ∃ l, s.allBlocksInLongestChain = some l ∧ l.length = 3 ∧
        l.head? = some ((sampleEnv true).hash (sampleEnv true).genesis) ∧
        l.Chain' (s.Link (sampleEnv true)) := by
  obtain ⟨s, out, h, h₂⟩ : ∃ s out, run (sampleEnv true) (Blockchain.new (sampleEnv true))
      [.mine [] 0 0, .mine [] 0 1] = some (s, out) ∧ s.hashToHeight.lookup s.tip = some 2 :=
    ⟨_, _, rfl, by decide⟩
  obtain ⟨n, l, hn, hfuel, hl, hlen, hhead, -, -, -, hlink⟩ :=
    reachable_longest_chain ⟨_, _, h⟩ (sampleEnv_idealHash true)
  obtain rfl : n = 2 := Option.some.inj (hn.symm.trans h₂)
  exact ⟨sampleEnv_idealHash true, s, ⟨_, _, h⟩, h₂, hfuel, l, hl, hlen, hhead, hlink⟩

/-- Collaborators whose `Header::hash` sends every header to `0`. -/
def collidingEnv : Env Int where
  headerHash _ := 0
  merkleRoot _ := 0
  zero := 0
  genesisDifficulty := 0
  pop
    | [] => none
    | t :: l => some (t, l)
  push := List.cons

/-- **A hash collision loops the walk.**  Under a hash that sends every block to genesis's, a
    fresh node's first mined block overwrites genesis, at height 1, with a block whose parent is
    its own hash: from the tip the loop never exits, and `all_blocks_in_longest_chain` with it. -/
theorem colliding_hash_walk_never_ends :
    ∃ s, Reachable collidingEnv s ∧ s.hashToHeight.lookup s.tip = some 1 ∧
      (∀ fuel, s.walkBack fuel s.tip [s.tip] = none) ∧ s.allBlocksInLongestChain = none := by
  obtain ⟨s, out, hrun, hh, hb⟩ : ∃ s out,
      run collidingEnv (Blockchain.new collidingEnv) [.mine [] 0 0] = some (s, out) ∧
      s.hashToHeight.lookup s.tip = some (0 + 1) ∧
      s.hashToBlock.lookup s.tip = some ⟨⟨s.tip, 0, 0, 0, 0⟩, ⟨[default]⟩⟩ :=
    ⟨_, _, rfl, rfl, rfl⟩
  have hloop := walkBack_loop hh hb rfl
  exact ⟨s, ⟨_, _, hrun⟩, hh, fun fuel => hloop fuel _,
    by rw [allBlocksInLongestChain, hloop]; rfl⟩

/-! ## The miner's step -/

end PowNode
