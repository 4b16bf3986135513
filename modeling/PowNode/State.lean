/-
  The ACCOUNT TABLE `State` of `blockchain.rs`, and its initial coin offering.

  `State::ico` gives the `i`-th of ten deterministic key pairs `1000 * (10 - i)` coins and
  nonce 0, inserting the ten accounts in order into an empty `HashMap`.  The addresses come
  from `get_deterministic_keypair` and `H160::from_pubkey`, outside `src/`: they are the
  parameter `address`.

  1. THE LOOP.  After the first `n` inserts, the address of each account `i < n` maps to
     account `i`'s entry and every other address to nothing, provided the `n` addresses
     differ (`lookup_insertAccounts`).
  2. THE TABLE (`ico_accounts`).  So when the ten addresses differ, account `i` has nonce 0 and
     exactly `1000 * (10 - i)` coins — the `u64` product never wraps —, no other address has
     an account, and the ten balances add up to 55000 coins.
-/
import PowNode.Types
import Mathlib

namespace PowNode

/-- `State`: each account's `(nonce, balance)`, by address. -/
structure State where
  map : Finmap (fun _ : H160 => UInt32 × UInt64)

namespace State

/-- The loop of `State::ico` over its first `n` accounts, the `i`-th at `address i` with
    entry `entry i`. -/
def insertAccounts (address : Nat → H160) (entry : Nat → UInt32 × UInt64) (n : Nat) :
    Finmap (fun _ : H160 => UInt32 × UInt64) :=
  (List.range n).foldl (fun state i => state.insert (address i) (entry i)) ∅

/-- `State::ico`: account `i < 10`, at `address i`, gets nonce 0 and `1000 * (10 - i)` coins. -/
def ico (address : Nat → H160) : State :=
  ⟨insertAccounts address (fun i => (0, 1000 * (10 - i).toUInt64)) 10⟩

/-- `State::get`. -/
def get (s : State) (address : H160) : Option (UInt32 × UInt64) := s.map.lookup address

/-- `State::update`: `HashMap::insert`, replacing the account's entry. -/
def update (s : State) (address : H160) (nonce : UInt32) (balance : UInt64) : State :=
  ⟨s.map.insert address (nonce, balance)⟩

@[simp] theorem get_update {s : State} {a b : H160} {nonce : UInt32} {balance : UInt64} :
    (s.update a nonce balance).get b = if b = a then some (nonce, balance) else s.get b := by
  by_cases h : b = a
  · subst h; simp [get, update]
  · simp [get, update, h, Finmap.lookup_insert_of_ne _ h]

/-! ## The loop of inserts -/

variable {address : Nat → H160}

theorem insertAccounts_succ (entry : Nat → UInt32 × UInt64) (n : Nat) :
    insertAccounts address entry (n + 1) =
    (insertAccounts address entry n).insert (address n) (entry n) := by
  simp [insertAccounts, List.range_succ, List.foldl_append]

/-- **The loop.**  Over pairwise different addresses, the `i`-th inserted account is found
    under its address, and no other address is. -/
theorem lookup_insertAccounts (entry : Nat → UInt32 × UInt64) :
    ∀ {n : Nat}, (∀ i < n, ∀ j < n, address i = address j → i = j) →
    (∀ i < n, (insertAccounts address entry n).lookup (address i) = some (entry i)) ∧
      ∀ a, (∀ i < n, address i ≠ a) → (insertAccounts address entry n).lookup a = none
  | 0, _ => ⟨fun _ h => absurd h (Nat.not_lt_zero _), fun _ _ => rfl⟩
  | n + 1, hinj => by
    obtain ⟨hin, hout⟩ :=
      lookup_insertAccounts entry (n := n) fun i hi j hj => hinj i (by omega) j (by omega)
    rw [insertAccounts_succ]
    refine ⟨fun i hi => ?_, fun a ha => ?_⟩
    · rcases Nat.lt_succ_iff_lt_or_eq.mp hi with hi | rfl
      · -- an earlier account keeps its entry: the later address differs
        have hne : address i ≠ address n := fun he => by
          have := hinj i (by omega) n (by omega) he
          omega
        rw [Finmap.lookup_insert_of_ne _ hne, hin i hi]
      · exact Finmap.lookup_insert _
    · rw [Finmap.lookup_insert_of_ne _ (ha n (by omega)).symm, hout a fun i hi => ha i (by omega)]

/-! ## The offering -/

/-- **The ICO.**  When the ten key pairs' addresses differ, account `i` has nonce 0 and exactly
    `1000 * (10 - i)` coins, no other address has an account, and the ten balances add up to
    55000 coins. -/
theorem ico_accounts (hinj : ∀ i < 10, ∀ j < 10, address i = address j → i = j) :
    (∀ i < 10, ∃ e, (ico address).get (address i) = some e ∧ e.1 = 0 ∧
      e.2.toNat = 1000 * (10 - i)) ∧
    (∀ a, (∀ i < 10, address i ≠ a) → (ico address).get a = none) ∧
    ((List.range 10).map fun i =>
      (((ico address).get (address i)).map fun e => e.2.toNat).getD 0).sum = 55000 := by
  obtain ⟨hin, hout⟩ :=
    lookup_insertAccounts (fun i => ((0 : UInt32), 1000 * (10 - i).toUInt64)) hinj
  have hbal : ∀ i < 10, (1000 * (10 - i).toUInt64).toNat = 1000 * (10 - i) := by decide
  have hsum : ∀ i ∈ List.range 10,
      (((ico address).get (address i)).map fun e => e.2.toNat).getD 0 = 1000 * (10 - i) :=
    fun i hi => by
      simp only [get, ico, hin i (List.mem_range.mp hi), Option.map_some', Option.getD_some]
      exact hbal i (List.mem_range.mp hi)
  refine ⟨fun i hi => ⟨_, hin i hi, rfl, hbal i hi⟩, hout, ?_⟩
  rw [List.map_congr_left hsum]
  decide

/-- The addresses `0, 1, …, 9` differ, so the ten balances add up to 55000 coins. -/
example : ((List.range 10).map fun i =>
    (((ico fun i => (i : H160)).get i).map fun e => e.2.toNat).getD 0).sum = 55000 :=
  (ico_accounts fun i _ j _ h => by
    have h' := congrArg BitVec.toNat h
    simp at h'
    omega).2.2

end State

end PowNode
