/-
# Lkv.Theory.Dictionary — maps, the lists that list them, and overriding

A finite map is used in two shapes: as the function from keys to values that a
client sees, and as a list of pairs in some order, which is what tables and logs
hold.  `latest` reads a list as a function; with no key twice, membership and
lookup agree (`latest_eq_some_iff`) and the order does not matter (`latest_perm`).

`override m ops` is `m` after a list of operations, each of which sets a key or
removes it.  `Lists m pairs` says that `pairs` holds the bindings of `m`, each
once; what is left of the pairs of `m` and the values the operations set then
list `override m ops` (`Lists.override`).
-/
import Mathlib.Data.List.Perm.Subperm
import Mathlib.Data.List.Dedup
import Mathlib.Data.Set.Card

namespace Lkv.Theory

set_option autoImplicit false

namespace Dictionary

variable {K V : Type} [DecidableEq K]

/-- The value of the first pair with this key. -/
def latest (pairs : List (K × V)) (key : K) : Option V :=
  (pairs.find? fun pair => pair.1 = key).map Prod.snd

/-- No key occurs twice. -/
def Distinct (pairs : List (K × V)) : Prop := (pairs.map Prod.fst).Nodup

omit [DecidableEq K] in
theorem distinct_nil : Distinct ([] : List (K × V)) := List.nodup_nil

section Latest

variable {one two pairs : List (K × V)} {key : K} {value : V}

@[simp] theorem latest_nil (key : K) : latest ([] : List (K × V)) key = none := rfl

theorem latest_cons (pair : K × V) (pairs : List (K × V)) (key : K) :
    latest (pair :: pairs) key = if pair.1 = key then some pair.2 else latest pairs key := by
  rw [latest, List.find?_cons]
  by_cases same : pair.1 = key
  · simp [same]
  · simp only [same, decide_false, if_false]
    rfl

theorem latest_append (one two : List (K × V)) (key : K) :
    latest (one ++ two) key = (latest one key).or (latest two key) := by
  rw [latest, List.find?_append]
  cases found : one.find? fun pair => pair.1 = key <;> simp [latest, found]

theorem latest_eq_none_iff : latest pairs key = none ↔ key ∉ pairs.map Prod.fst := by
  rw [latest, Option.map_eq_none_iff, List.find?_eq_none, List.mem_map]
  simp only [decide_eq_true_eq]
  constructor
  · rintro absent ⟨pair, member, same⟩
    exact absent pair member same
  · intro absent pair member same
    exact absent ⟨pair, member, same⟩

theorem mem_of_latest (found : latest pairs key = some value) : (key, value) ∈ pairs := by
  obtain ⟨⟨k, v⟩, first, rfl⟩ := Option.map_eq_some_iff.mp found
  have same : k = key := by simpa using List.find?_some first
  exact same ▸ List.mem_of_find?_eq_some first

theorem latest_eq_some_iff (distinct : Distinct pairs) :
    latest pairs key = some value ↔ (key, value) ∈ pairs := by
  refine ⟨mem_of_latest, fun member => ?_⟩
  induction pairs with
  | nil => cases member
  | cons pair pairs ih =>
      rw [Distinct, List.map_cons, List.nodup_cons] at distinct
      rw [latest_cons]
      rcases List.mem_cons.mp member with rfl | later
      · rw [if_pos rfl]
      · have apart : pair.1 ≠ key := fun same =>
          distinct.1 (same ▸ List.mem_map_of_mem (f := Prod.fst) later)
        rw [if_neg apart]
        exact ih distinct.2 later

omit [DecidableEq K] in
theorem Distinct.perm (distinct : Distinct one) (perm : one.Perm two) : Distinct two :=
  (perm.map Prod.fst).nodup_iff.mp distinct

/-- After its only pair a key does not occur again. -/
theorem Distinct.latest_after {before after : List (K × V)}
    (distinct : Distinct (before ++ (key, value) :: after)) : latest after key = none := by
  rw [Distinct, List.map_append, List.map_cons] at distinct
  exact latest_eq_none_iff.mpr (List.nodup_cons.mp (List.nodup_append.mp distinct).2.1).1

theorem latest_perm (perm : one.Perm two) (distinct : Distinct one) (key : K) :
    latest one key = latest two key := by
  apply Option.ext
  intro value
  rw [latest_eq_some_iff distinct, latest_eq_some_iff (distinct.perm perm)]
  exact perm.mem_iff

/-- Without a key twice, a list is determined by how it looks up, up to order. -/
theorem perm_of_latest (distinct : Distinct one) (distinct' : Distinct two)
    (same : ∀ key, latest one key = latest two key) : one.Perm two := by
  refine (List.perm_ext_iff_of_nodup distinct.of_map distinct'.of_map).mpr ?_
  rintro ⟨key, value⟩
  rw [← latest_eq_some_iff distinct, ← latest_eq_some_iff distinct', same]

end Latest

/-! ## Overriding -/

/-- The map after the operations; `none` removes a key. -/
def override (m : K → Option V) (ops : List (K × Option V)) : K → Option V := fun key =>
  (latest ops key).getD (m key)

section Override

variable {m : K → Option V} {ops one two : List (K × Option V)}

@[simp] theorem override_nil (m : K → Option V) : override m [] = m := rfl

theorem override_append (m : K → Option V) (one two : List (K × Option V)) :
    override m (one ++ two) = override (override m two) one := by
  funext key
  simp only [override, latest_append]
  cases latest one key <;> rfl

theorem override_congr (same : ∀ key, latest one key = latest two key) :
    override m one = override m two := by
  funext key
  rw [override, override, same]

end Override

/-! ## Listing a map -/

/-- The pairs are the bindings of `m`, each once. -/
structure Lists (m : K → Option V) (pairs : List (K × V)) : Prop where
  distinct : Distinct pairs
  mem : ∀ key value, (key, value) ∈ pairs ↔ m key = some value

section Lists

variable {m : K → Option V} {pairs pairs' : List (K × V)} {ops visited : List (K × Option V)}

theorem lists_latest (distinct : Distinct pairs) : Lists (latest pairs) pairs :=
  ⟨distinct, fun _ _ => (latest_eq_some_iff distinct).symm⟩

theorem Lists.eq_latest (lists : Lists m pairs) : m = latest pairs := by
  funext key
  apply Option.ext
  intro value
  rw [latest_eq_some_iff lists.distinct, lists.mem]

omit [DecidableEq K] in
theorem Lists.perm (lists : Lists m pairs) (perm : pairs.Perm pairs') : Lists m pairs' :=
  ⟨lists.distinct.perm perm, fun key value => perm.mem_iff.symm.trans (lists.mem key value)⟩

/-- The keys that have a value are as many as there are pairs. -/
theorem Lists.ncard (lists : Lists m pairs) : {key | m key ≠ none}.ncard = pairs.length := by
  have keys : {key | m key ≠ none} = ((pairs.map Prod.fst).toFinset : Set K) := by
    ext key
    simp only [Set.mem_ofPred_eq, List.coe_toFinset, List.mem_map]
    constructor
    · intro some
      obtain ⟨value, found⟩ := Option.ne_none_iff_exists'.mp some
      exact ⟨(key, value), (lists.mem key value).mpr found, rfl⟩
    · rintro ⟨⟨k, value⟩, member, rfl⟩
      rw [(lists.mem k value).mp member]
      exact Option.some_ne_none value
  rw [keys, Set.ncard_coe_finset, List.toFinset_card_of_nodup lists.distinct, List.length_map]

/-- The values the operations set. -/
def live (ops : List (K × Option V)) : List (K × V) :=
  ops.filterMap fun op => op.2.map fun value => (op.1, value)

omit [DecidableEq K] in
theorem mem_live {key : K} {value : V} : (key, value) ∈ live ops ↔ (key, some value) ∈ ops := by
  rw [live, List.mem_filterMap]
  constructor
  · rintro ⟨⟨k, v⟩, member, given⟩
    obtain ⟨v', rfl, same⟩ := Option.map_eq_some_iff.mp given
    cases same
    exact member
  · intro member
    exact ⟨(key, some value), member, rfl⟩

omit [DecidableEq K] in
theorem Distinct.live (distinct : Distinct ops) : Distinct (live ops) := by
  have keys : ((Dictionary.live ops).map Prod.fst).Sublist (ops.map Prod.fst) := by
    clear distinct
    induction ops with
    | nil => exact List.nil_sublist _
    | cons op ops ih =>
        obtain ⟨key, value⟩ := op
        cases value with
        | none => exact ih.cons _
        | some value => exact ih.cons_cons _
  exact distinct.sublist keys

/-- What the operations leave of the pairs, and the values they set. -/
theorem Lists.override (lists : Lists m pairs) (distinct : Distinct ops) :
    Lists (override m ops)
      ((pairs.filter fun pair => !(latest ops pair.1).isSome) ++ Dictionary.live ops) := by
  have kept : ∀ key value, (key, value) ∈ pairs.filter (fun pair => !(latest ops pair.1).isSome) ↔
      m key = some value ∧ latest ops key = none := by
    intro key value
    rw [List.mem_filter, lists.mem]
    simp
  constructor
  · rw [Distinct, List.map_append, List.nodup_append]
    refine ⟨lists.distinct.sublist (List.filter_sublist.map _), distinct.live, ?_⟩
    -- A kept key has no operation, a live one does.
    rintro _ inKept key inLive rfl
    obtain ⟨⟨k, value⟩, member, rfl⟩ := List.mem_map.mp inKept
    obtain ⟨⟨k', value'⟩, member', same⟩ := List.mem_map.mp inLive
    have set := (latest_eq_some_iff distinct).mpr (mem_live.mp member')
    have same : k' = k := same
    rw [same, ((kept k value).mp member).2] at set
    cases set
  · intro key value
    rw [List.mem_append, kept, mem_live, ← latest_eq_some_iff distinct, Dictionary.override]
    cases latest ops key with
    | none => simp
    | some set => simp

end Lists

end Dictionary

end Lkv.Theory
