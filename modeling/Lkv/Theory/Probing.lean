/-
# Lkv.Theory.Probing — open addressing with linear probing

A table of `n` slots is a function to `Option α`.  A lookup starts at a home
slot, goes on cyclically, and gives up at the first empty slot.  It finds an
element exactly when no slot between the home of the lookup and the element is
empty (`Reaches`); inserting into the first empty slot keeps that true of what
is already there (`Reaches.mono`) and makes it true of the new element
(`exists_free`).
-/
import Mathlib.Data.Nat.Find
import Mathlib.Order.Basic

namespace Lkv.Theory.Probing

set_option autoImplicit false

variable {α β : Type}

/-- The slot visited after `p` steps from `home`. -/
def slotOf (n home p : Nat) : Nat := (home + p) % n

theorem slotOf_lt {n : Nat} (some : 0 < n) (home p : Nat) : slotOf n home p < n :=
  Nat.mod_lt _ some

theorem slotOf_succ (n home p : Nat) : (slotOf n home p + 1) % n = slotOf n home (p + 1) := by
  unfold slotOf
  rw [Nat.mod_add_mod, Nat.add_assoc]

/-- Every slot is visited within `n` steps. -/
theorem exists_slotOf {n slot : Nat} (inside : slot < n) (home : Nat) :
    ∃ p < n, slotOf n home p = slot := by
  have positive : 0 < n := by omega
  have homeBelow := Nat.mod_lt home positive
  refine ⟨(slot + (n - home % n)) % n, Nat.mod_lt _ positive, ?_⟩
  calc (home + (slot + (n - home % n)) % n) % n
      = (home % n + (slot + (n - home % n))) % n := by
        rw [Nat.add_mod, Nat.mod_mod, ← Nat.add_mod, Nat.mod_add_mod]
    _ = (slot + n) % n := by congr 1; omega
    _ = slot := by rw [Nat.add_mod_right, Nat.mod_eq_of_lt inside]

/-! ## Lookup -/

/-- `count` more probes, the first of them at distance `p`. -/
def search (table : Nat → Option α) (hit : α → Option β) (n home : Nat) : Nat → Nat → Option β
  | 0, _ => none
  | count + 1, p =>
      match table (slotOf n home p) with
      | none => none
      | some a =>
          match hit a with
          | some b => some b
          | none => search table hit n home count (p + 1)

def lookup (table : Nat → Option α) (hit : α → Option β) (n home : Nat) : Option β :=
  search table hit n home n 0

/-- A lookup from `home` gets as far as `slot`. -/
def Reaches (table : Nat → Option α) (n home slot : Nat) : Prop :=
  ∃ p < n, slotOf n home p = slot ∧ ∀ j < p, table (slotOf n home j) ≠ none

section Lookup

variable {table table' : Nat → Option α} {hit : α → Option β} {n home slot : Nat} {a : α} {b : β}

theorem Reaches.mono (reaches : Reaches table n home slot)
    (filled : ∀ s, table s ≠ none → table' s ≠ none) : Reaches table' n home slot := by
  obtain ⟨p, below, at_slot, occupied⟩ := reaches
  exact ⟨p, below, at_slot, fun j before => filled _ (occupied j before)⟩

theorem Reaches.lt (reaches : Reaches table n home slot) : slot < n := by
  obtain ⟨p, below, rfl, _⟩ := reaches
  exact slotOf_lt (by omega) home p

theorem search_eq_some {count p : Nat} (found : search table hit n home count p = some b) :
    ∃ q, p ≤ q ∧ q < p + count ∧ (∃ a, table (slotOf n home q) = some a ∧ hit a = some b) ∧
      ∀ j, p ≤ j → j < q → table (slotOf n home j) ≠ none := by
  induction count generalizing p with
  | zero => cases found
  | succ count ih =>
      rw [search] at found
      cases entry : table (slotOf n home p) with
      | none => simp [entry] at found
      | some a =>
          cases hits : hit a with
          | some b' =>
              simp only [entry, hits] at found
              cases found
              exact ⟨p, le_rfl, by omega, ⟨a, entry, hits⟩, fun j above below => by omega⟩
          | none =>
              simp only [entry, hits] at found
              obtain ⟨q, above, below, matched, occupied⟩ := ih found
              refine ⟨q, by omega, by omega, matched, fun j from_p before => ?_⟩
              rcases Nat.eq_or_lt_of_le from_p with rfl | later
              · simp [entry]
              · exact occupied j later before

/-- What a lookup returns is in the table, and the lookup gets there. -/
theorem lookup_eq_some (found : lookup table hit n home = some b) :
    ∃ slot a, Reaches table n home slot ∧ table slot = some a ∧ hit a = some b := by
  obtain ⟨q, _, below, ⟨a, entry, hits⟩, occupied⟩ := search_eq_some found
  exact ⟨_, a, ⟨q, by omega, rfl, fun j before => occupied j (Nat.zero_le j) before⟩, entry, hits⟩

theorem search_of_reaches {count p q : Nat} (upTo : p ≤ q) (below : q < p + count)
    (entry : table (slotOf n home q) = some a) (hits : hit a = some b)
    (occupied : ∀ j < q, table (slotOf n home j) ≠ none)
    (unique : ∀ j a' b', table (slotOf n home j) = some a' → hit a' = some b' → b' = b) :
    search table hit n home count p = some b := by
  induction count generalizing p with
  | zero => omega
  | succ count ih =>
      rw [search]
      cases here : table (slotOf n home p) with
      | none =>
          rcases Nat.eq_or_lt_of_le upTo with rfl | later
          · simp [entry] at here
          · exact absurd here (occupied p later)
      | some a' =>
          cases hits' : hit a' with
          | some b' =>
              simp only [hits']
              exact congrArg some (unique _ a' b' here hits')
          | none =>
              simp only [hits']
              rcases Nat.eq_or_lt_of_le upTo with rfl | later
              · rw [entry] at here
                cases here
                simp [hits] at hits'
              · exact ih later (by omega)

/-- An element that is reached is found when no other one answers differently. -/
theorem lookup_of_reaches (reaches : Reaches table n home slot) (entry : table slot = some a)
    (hits : hit a = some b)
    (unique : ∀ s < n, ∀ a' b', table s = some a' → hit a' = some b' → b' = b) :
    lookup table hit n home = some b := by
  obtain ⟨q, below, rfl, occupied⟩ := reaches
  exact search_of_reaches (Nat.zero_le q) (by omega) entry hits occupied
    fun j => unique _ (slotOf_lt (by omega) home j)

theorem lookup_eq_none (misses : ∀ s < n, ∀ a, table s = some a → hit a = none) :
    lookup table hit n home = none := by
  cases found : lookup table hit n home with
  | none => rfl
  | some b =>
      obtain ⟨slot, a, reaches, entry, hits⟩ := lookup_eq_some found
      rw [misses slot reaches.lt a entry] at hits
      cases hits

end Lookup

/-! ## Insertion -/

/-- With a free slot somewhere, the first free slot from `home` on is reached. -/
theorem exists_free {table : Nat → Option α} {n : Nat} (home : Nat)
    (free : ∃ slot < n, table slot = none) :
    ∃ p < n, table (slotOf n home p) = none ∧ ∀ j < p, table (slotOf n home j) ≠ none := by
  classical
  obtain ⟨slot, inside, empty⟩ := free
  obtain ⟨q, below, rfl⟩ := exists_slotOf inside home
  have found : ∃ p, table (slotOf n home p) = none := ⟨q, empty⟩
  exact ⟨Nat.find found, lt_of_le_of_lt (Nat.find_min' found empty) below, Nat.find_spec found,
    fun j before => Nat.find_min found before⟩

end Lkv.Theory.Probing
