/-
# Lkv.Database.Iteration — what an iteration yields

`walkBase` reads the Base records one after another and says where that ends:
after the last record, or in an error.  An iteration over such a walk and an
overlay that decodes yields `itemsOf`: the records the overlay does not shadow
and then, if the walk ended well, the live operations of the overlay.

`next_spec` is the step; the runs are `drain` (every `Entries` item), `rawLen`
and the feed of the Base writer.
-/
import Lkv.Database.Lookup
import Lkv.Database.Overlay

namespace Lkv

open Lkv.Theory Lkv.Theory.Prog Dictionary

set_option autoImplicit false

/-! ## The walk over the Base -/

/-- Up to `n` records from `offset` on, and the error the walk ends in, if any. -/
def walkBase (mapping : Bytes) (dataSize : Nat) : Nat → Nat → List (Nat × Entry) × Option Error
  | 0, offset =>
      ([], if offset = dataSize then none
        else some (.invalidBase "base record count does not match data size"))
  | n + 1, offset =>
      match recordAt mapping offset dataSize with
      | .ok (key, value, stop) =>
          let (rest, error) := walkBase mapping dataSize n stop
          ((offset, (key, value)) :: rest, error)
      | .error (.err error) => ([], some error)
      | .error _ => ([], none)

section Walk

variable {mapping : Bytes} {dataSize : Nat}

theorem walkBase_length_le (n offset : Nat) :
    (walkBase mapping dataSize n offset).1.length ≤ n := by
  induction n generalizing offset with
  | zero => simp [walkBase]
  | succ n ih =>
      rw [walkBase]
      split
      · rename_i stop _
        simpa using ih stop
      · simp
      · simp

theorem walkBase_records (fits : dataSize ≤ mapping.length) (word : dataSize < 2 ^ 64)
    {n offset : Nat} {p : Nat × Entry} (member : p ∈ (walkBase mapping dataSize n offset).1) :
    HasRecord mapping dataSize p.1 p.2 := by
  induction n generalizing offset with
  | zero => simp [walkBase] at member
  | succ n ih =>
      rw [walkBase] at member
      split at member
      · rename_i key value stop read
        rcases List.mem_cons.mp member with rfl | later
        · exact ((recordAt_eq_ok fits word).mp read).1
        · exact ih later
      · simp at member
      · simp at member

/-- On a run of records the walk finds them and ends well. -/
theorem walkBase_of_walk (fits : dataSize ≤ mapping.length) (word : dataSize < 2 ^ 64)
    {offset : Nat} {entries : List Entry} (walk : Walk mapping dataSize offset entries dataSize) :
    walkBase mapping dataSize entries.length offset = (placed offset entries, none) := by
  induction entries generalizing offset with
  | nil =>
      rw [walk_nil] at walk
      simp [walkBase, placed, walk]
  | cons entry rest ih =>
      obtain ⟨has, walk⟩ := walk_cons.mp walk
      rw [List.length_cons, walkBase, (recordAt_eq_ok fits word).mpr ⟨has, rfl⟩]
      simp only [ih walk, placed]

section Append

variable {data rest : Bytes}

theorem getRange_append {start stop : Nat} (inside : stop ≤ data.length) :
    getRange (data ++ rest) start stop = getRange data start stop := by
  unfold getRange
  by_cases ordered : start ≤ stop
  · rw [if_pos ⟨ordered, by rw [List.length_append]; omega⟩, if_pos ⟨ordered, inside⟩,
      window_append_left _ _ _ _ (by omega)]
  · rw [if_neg (by tauto), if_neg (by tauto)]

/-- Records are read from the data alone. -/
theorem recordAt_append (offset : Nat) :
    recordAt (data ++ rest) offset data.length = recordAt data offset data.length := by
  unfold recordAt
  cases first : (checkedAdd offset 8).filter (· ≤ data.length) with
  | none => rfl
  | some headerEnd =>
      have inside := (Option.filter_eq_some_iff.mp first).2
      rw [orFail_some, ok_bind, ok_bind, getRange_append (by simpa using inside)]
      refine congrArg _ (funext fun header => ?_)
      dsimp only
      refine congrArg _ (funext fun valueStart => ?_)
      cases second : (checkedAdd valueStart (leNat (window header 4 4))).filter (· ≤ data.length) with
      | none => rfl
      | some stop =>
          have inside' := (Option.filter_eq_some_iff.mp second)
          rw [checkedAdd_eq_some_iff] at inside'
          have below : stop ≤ data.length := by simpa using inside'.2
          rw [orFail_some, ok_bind, ok_bind, getRange_append (by omega), getRange_append below]

theorem walkBase_append (n offset : Nat) :
    walkBase (data ++ rest) data.length n offset = walkBase data data.length n offset := by
  induction n generalizing offset with
  | zero => rfl
  | succ n ih =>
      rw [walkBase, walkBase, recordAt_append]
      simp only [ih]

end Append

end Walk

/-! ## One step -/

/-- The overlay has an operation on the key. -/
def shadows (ops : List Operation) (key : Bytes) : Bool := (latest ops key).isSome

/-- The pairs that the operations leave behind. -/
def liveOps (ops : List Operation) : List Entry :=
  ops.filterMap fun op => op.2.map fun value => (op.1, value)

/-- The item for a Base record. -/
def baseItem (p : Nat × Entry) : Item :=
  ⟨p.2.1, p.2.2, some (p.1 + 8, p.1 + recordSize p.2)⟩

def overlayItem (entry : Entry) : Item := ⟨entry.1, entry.2, none⟩

/-- What is left to yield: unshadowed records, then live operations. -/
def itemsOf (walked : List (Nat × Entry)) (error : Option Error) (ops visited : List Operation) :
    List Item :=
  (walked.filter fun p => !shadows ops p.2.1).map baseItem ++
    if error.isSome then [] else (liveOps visited).map overlayItem

/-- The pairs an iteration yields when no block check fails. -/
def pairsOf (walked : List (Nat × Entry)) (ops visited : List Operation) : List Entry :=
  (walked.map Prod.snd).filter (fun entry => !shadows ops entry.1) ++ liveOps visited

theorem items_pairs (walked : List (Nat × Entry)) (ops visited : List Operation) :
    (itemsOf walked none ops visited).map (fun item => (item.key, item.value)) =
      pairsOf walked ops visited := by
  unfold itemsOf pairsOf
  simp only [Option.isSome_none, Bool.false_eq_true, if_false, List.map_append, List.map_map,
    List.filter_map]
  congr 1
  exact List.map_id _

/-- The iterator stands before this walk and these overlay operations. -/
structure Iterates (file : File) (it : RawEntries) (walked : List (Nat × Entry))
    (error : Option Error) (ops visited : List Operation) : Prop where
  running : it.finished = false
  quiet : it.pendingError = none
  inside : it.base.dataSize ≤ (it.base.mapping.deref file).length
  word : it.base.dataSize < 2 ^ 64
  walk : walkBase (it.base.mapping.deref file) it.base.dataSize it.baseRemaining it.baseOffset =
    (walked, error)
  trusted : it.baseTrusted = true → error = none
  decodes : it.overlay.Decodes file ops
  rest : List.Forall₂ (fun item op => item.operation (it.overlay.log file) = .ok op) it.rest visited

section Step

variable {file : File} {it : RawEntries} {walked : List (Nat × Entry)} {error : Option Error}
variable {ops visited : List Operation} {base : BaseView} {overlay : OverlayMap} {trusted : Bool}

theorem nextLive_spec {log : Bytes} {rest : List OverlayItem}
    (decodes : List.Forall₂ (fun item op => item.operation log = .ok op) rest visited) :
    match liveOps visited with
    | [] => nextLive log rest = .ok (none, [])
    | entry :: live => ∃ rest' visited', nextLive log rest = .ok (some entry, rest') ∧
        List.Forall₂ (fun item op => item.operation log = .ok op) rest' visited' ∧
        liveOps visited' = live := by
  induction decodes with
  | nil => rfl
  | @cons item op rest visited here others ih =>
      obtain ⟨key, value⟩ := op
      rw [nextLive, here]
      cases value with
      | some value => exact ⟨rest, visited, rfl, others, rfl⟩
      | none => exact ih

/-- The next unshadowed record, or the end of the walk. -/
theorem nextBase_spec {remaining offset : Nat} (decodes : overlay.Decodes file ops)
    (inside : base.dataSize ≤ (base.mapping.deref file).length) (word : base.dataSize < 2 ^ 64)
    (walk : walkBase (base.mapping.deref file) base.dataSize remaining offset = (walked, error))
    (safe : trusted = true → error = none) :
    match walked.filter fun p => !shadows ops p.2.1 with
    | p :: rest => ∃ left walked',
        RawEntries.nextBase file base overlay trusted remaining offset =
          .ok (.item (baseItem p) (p.1 + recordSize p.2) left) ∧
        walkBase (base.mapping.deref file) base.dataSize left (p.1 + recordSize p.2) =
          (walked', error) ∧
        (walked'.filter fun p => !shadows ops p.2.1) = rest ∧
        left + walked.length = remaining + walked'.length
    | [] =>
        (∃ failure at_ left, error = some failure ∧
          RawEntries.nextBase file base overlay trusted remaining offset =
            .ok (.failed failure at_ left)) ∨
        ∃ at_, RawEntries.nextBase file base overlay trusted remaining offset =
            .ok (.exhausted at_) ∧ walked.length = remaining ∧
          error = if at_ = base.dataSize then none
            else some (.invalidBase "base record count does not match data size") := by
  induction remaining generalizing offset walked with
  | zero =>
      rw [walkBase] at walk
      cases walk
      exact .inr ⟨offset, rfl, rfl, rfl⟩
  | succ remaining ih =>
      rw [walkBase] at walk
      cases read : recordAt (base.mapping.deref file) offset base.dataSize with
      | error stop =>
          obtain ⟨failure, rfl⟩ := recordAt_noPanic stop read
          rw [read] at walk
          cases walk
          have untrusted : trusted = false := by
            by_contra isTrusted
            cases safe (Bool.eq_true_of_not_eq_false isTrusted)
          refine .inl ⟨failure, offset, remaining + 1, rfl, ?_⟩
          rw [RawEntries.nextBase, untrusted]
          simp [read]
      | ok found =>
          obtain ⟨key, value, stop⟩ := found
          rw [read] at walk
          obtain ⟨has, ends⟩ := (recordAt_eq_ok inside word).mp read
          cases later : walkBase (base.mapping.deref file) base.dataSize remaining stop with
          | mk walked' error' =>
              dsimp only at walk
              rw [later] at walk
              cases walk
              have step : RawEntries.nextBase file base overlay trusted (remaining + 1) offset =
                  if shadows ops key then
                    RawEntries.nextBase file base overlay trusted remaining stop
                  else .ok (.item ⟨key, value, some (offset + 8, stop)⟩ stop remaining) := by
                rw [RawEntries.nextBase]
                have same : (if trusted = true then
                    trustedRecordAt (base.mapping.deref file) offset
                    else recordAt (base.mapping.deref file) offset base.dataSize) =
                    .ok (key, value, stop) := by
                  split
                  · rw [trustedRecordAt_ok inside word has, ends]
                  · exact read
                simp only [same, OverlayMap.containsKey_eq decodes]
                rfl
              rw [step, List.filter_cons]
              cases shadowed : shadows ops key with
              | true =>
                  simp only [Bool.not_true, Bool.false_eq_true, if_false, if_true]
                  have step := ih later
                  cases pending : walked'.filter fun p => !shadows ops p.2.1 with
                  | cons p rest =>
                      rw [pending] at step
                      obtain ⟨left, walked'', found, walk, same, onward⟩ := step
                      refine ⟨left, walked'', found, walk, same, ?_⟩
                      rw [List.length_cons]
                      omega
                  | nil =>
                      rw [pending] at step
                      rcases step with failed | ⟨stopped, found, all, ended⟩
                      · exact .inl failed
                      · exact .inr ⟨stopped, found, by rw [List.length_cons, all], ended⟩
              | false =>
                  simp only [Bool.not_false, Bool.false_eq_true, if_false, if_true]
                  refine ⟨remaining, walked', ?_, ?_, rfl, ?_⟩
                  · rw [baseItem, ends]
                  · rw [← ends]
                    exact later
                  · rw [List.length_cons]
                    omega

theorem nextOverlay_spec (iterates : Iterates file it [] none ops visited) :
    match liveOps visited with
    | entry :: live => ∃ it' visited', it.nextOverlay file = .ok (some (overlayItem entry), it') ∧
        Iterates file it' [] none ops visited' ∧ liveOps visited' = live ∧ it'.base = it.base ∧
        it'.overlay = it.overlay ∧ it'.baseRemaining = it.baseRemaining
    | [] => it.nextOverlay file = .ok (none, { it with rest := [], finished := true }) := by
  have live := nextLive_spec iterates.rest
  unfold RawEntries.nextOverlay
  cases listed : liveOps visited with
  | nil =>
      rw [listed] at live
      rw [live]
      rfl
  | cons entry others =>
      rw [listed] at live
      obtain ⟨rest', visited', read, decodes, same⟩ := live
      rw [read]
      exact ⟨{ it with rest := rest' }, visited', rfl, { iterates with rest := decodes }, same, rfl,
        rfl, rfl⟩

theorem next_spec (iterates : Iterates file it walked error ops visited) :
    match itemsOf walked error ops visited with
    | item :: rest => ∃ it' walked' visited', it.next file = .ok (some item, it') ∧
        Iterates file it' walked' error ops visited' ∧
        itemsOf walked' error ops visited' = rest ∧ it'.base = it.base ∧
        it'.overlay = it.overlay ∧
        it'.baseRemaining + walked.length = it.baseRemaining + walked'.length ∧
        (error ≠ none → it'.rest = it.rest)
    | [] => ∃ it', it.next file = .ok (none, it') ∧ it'.finished = true ∧
        it'.pendingError = error ∧ (error = none → it'.baseRemaining = 0 ∧ it'.rest = []) := by
  have base := nextBase_spec iterates.decodes iterates.inside iterates.word iterates.walk
    iterates.trusted
  simp only [RawEntries.next, iterates.running, Bool.false_eq_true, if_false]
  unfold itemsOf
  cases pending : walked.filter fun p => !shadows ops p.2.1 with
  | cons p rest =>
      rw [pending] at base
      obtain ⟨left, walked', found, walk, same, onward⟩ := base
      rw [found]
      refine ⟨it.seek (p.1 + recordSize p.2) left, walked', visited, rfl, { iterates with walk := walk },
        by rw [same]; rfl, rfl, rfl, onward, fun _ => rfl⟩
  | nil =>
      rw [pending] at base
      rcases base with ⟨failure, stopped, left, rfl, found⟩ | ⟨stopped, found, all, rfl⟩
      · rw [found]
        exact ⟨_, rfl, rfl, rfl, nofun⟩
      · rw [found]
        simp only [ok_bind]
        by_cases whole : stopped = it.base.dataSize
        · rw [if_neg (not_not.mpr whole), if_pos whole]
          have atEnd : Iterates file (it.seek stopped 0) [] none ops visited :=
            { iterates with
              walk := by simp [walkBase, RawEntries.seek, whole]
              trusted := fun _ => rfl }
          have step := nextOverlay_spec atEnd
          simp only [List.map_nil, List.nil_append, Option.isSome_none, Bool.false_eq_true, if_false]
          cases listed : liveOps visited with
          | nil =>
              rw [listed] at step
              exact ⟨_, step, rfl, iterates.quiet, fun _ => ⟨rfl, rfl⟩⟩
          | cons entry live =>
              rw [listed] at step
              obtain ⟨it', visited', read, iterates', rfl, sameBase, sameOverlay, done⟩ := step
              refine ⟨it', [], visited', read, iterates', rfl, sameBase, sameOverlay, ?_,
                fun failed => absurd rfl failed⟩
              rw [done, all]
              exact Nat.add_comm ..
        · rw [if_pos whole, if_neg whole]
          exact ⟨_, rfl, rfl, rfl, nofun⟩

end Step

/-! ## Whole runs -/

/-- The blocks under the pair match, as far as this mode looks at them. -/
def Passes (mapping : Bytes) (verification : VerificationMode) (v : SegmentVerifier) (item : Item) :
    Prop :=
  verification = .onRead → ∀ start stop, item.range = some (start, stop) →
    ∀ b, SegmentVerifier.Meets start stop b → v.Matches mapping b

/-- An item of `Entries` for an item of `RawEntries`: the pair if its blocks match. -/
def Reported (mapping : Bytes) (verification : VerificationMode) (v : SegmentVerifier) (item : Item)
    (reported : Except Error Entry) : Prop :=
  (Passes mapping verification v item ∧ reported = .ok (item.key, item.value)) ∨
    (¬Passes mapping verification v item ∧ ∃ error, reported = .error error)

section Runs

variable {file : File} {it : RawEntries} {walked : List (Nat × Entry)} {error : Option Error}
variable {ops visited : List Operation} {view : ReadView} {v v' : SegmentVerifier}

theorem Passes.same {mapping : Bytes} {verification : VerificationMode} {item : Item}
    (same : SegmentVerifier.Same v v') :
    Passes mapping verification v' item ↔ Passes mapping verification v item := by
  unfold Passes
  simp only [same.matches]

theorem Reported.same {mapping : Bytes} {verification : VerificationMode} {item : Item}
    {reported : Except Error Entry} (same : SegmentVerifier.Same v v') :
    Reported mapping verification v' item reported ↔ Reported mapping verification v item reported := by
  unfold Reported
  rw [Passes.same same]

/-- Ranges of yielded items lie in the data. -/
theorem item_inside {mapping : Bytes} {dataSize n offset : Nat} (fits : dataSize ≤ mapping.length)
    (word : dataSize < 2 ^ 64) (walk : walkBase mapping dataSize n offset = (walked, error))
    {item : Item} (member : item ∈ itemsOf walked error ops visited) {start stop : Nat}
    (range : item.range = some (start, stop)) : start ≤ stop ∧ stop ≤ dataSize := by
  rcases List.mem_append.mp member with base | overlay
  · obtain ⟨p, kept, rfl⟩ := List.mem_map.mp base
    have listed : p ∈ (walkBase mapping dataSize n offset).1 := by
      rw [walk]
      exact (List.mem_filter.mp kept).1
    have has := (walkBase_records fits word listed).inside
    cases range
    unfold recordSize at *
    omega
  · split at overlay
    · cases overlay
    · obtain ⟨entry, _, rfl⟩ := List.mem_map.mp overlay
      cases range

/-- Where every block matches, every pair passes. -/
theorem passes_of_allMatch {mapping : Bytes} {verification : VerificationMode} {item : Item}
    (sound : verification = .onRead → v.Sound mapping)
    (all : verification = .onRead → AllMatch mapping v)
    (inside : ∀ start stop, item.range = some (start, stop) → start ≤ stop ∧ stop ≤ v.dataSize) :
    Passes mapping verification v item := by
  intro mode start stop range b meets
  have block := @SegmentVerifier.block_lt v.dataSize stop (by have := meets.1; omega)
    (inside start stop range).2
  refine all mode b ?_
  rw [(sound mode).table]
  exact lt_of_le_of_lt meets.2.2 block

theorem reported_eq {mapping : Bytes} {verification : VerificationMode} {items : List Item}
    {reported : List (Except Error Entry)} (pass : ∀ item ∈ items, Passes mapping verification v item)
    (reports : List.Forall₂ (Reported mapping verification v) items reported) :
    reported = items.map fun item => .ok (item.key, item.value) := by
  induction reports with
  | nil => rfl
  | @cons item report items others here _ ih =>
      rcases here with ⟨_, rfl⟩ | ⟨fails, _⟩
      · rw [List.map_cons, ih fun item later => pass item (List.mem_cons_of_mem _ later)]
      · exact absurd (pass item (List.mem_cons_self ..)) fails

theorem wp_verifyPair {item : Item} (mapping : Bytes)
    (deref : view.base.mapping.deref file = mapping)
    (sound : view.verification = .onRead → v.Sound mapping)
    (inside : ∀ start stop, item.range = some (start, stop) →
      start ≤ stop ∧ stop ≤ v.dataSize) :
    wp (attempt Stop.error? (view.verifyPair file item.range))
      (fun r v' => (v.Sound mapping → v'.Sound mapping) ∧ v.Same v' ∧
        match r with
        | .ok () => Passes mapping view.verification v item
        | .error _ => ¬Passes mapping view.verification v item)
      (fun _ _ => False) v := by
  subst deref
  refine wp_attempt ?_
  unfold ReadView.verifyPair
  by_cases mode : view.verification = .onRead
  · rw [if_neg (not_not.mpr mode)]
    cases range : item.range with
    | none =>
        refine wp_pure ⟨id, SegmentVerifier.Same.refl v, fun _ start stop same => ?_⟩
        rw [range] at same
        cases same
    | some bounds =>
        obtain ⟨start, stop⟩ := bounds
        have within := inside start stop range
        refine wp_mono (SegmentVerifier.wp_verifyRange (sound mode)) ?_ ?_
        · rintro _ v1 ⟨sound1, same1, matched⟩
          refine ⟨fun _ => sound1, same1, fun _ start' stop' same b meets => ?_⟩
          rw [range] at same
          cases same
          refine matched b ?_ meets
          have := @SegmentVerifier.block_lt v.dataSize stop (by have := meets.1; omega) within.2
          rw [(sound mode).table]
          exact lt_of_le_of_lt meets.2.2 this
        · rintro e v1 ⟨sound1, same1, ⟨failure, rfl⟩, refused⟩
          refine ⟨fun _ => sound1, same1, fun passes => refused ⟨within.1, within.2, ?_⟩⟩
          exact passes mode start stop range
  · rw [if_pos mode]
    exact wp_pure ⟨id, SegmentVerifier.Same.refl v, fun on => absurd on mode⟩

/-- A complete iteration reports every item, and the error the walk ended in last. -/
theorem wp_drain {fuel : Nat} (iterates : Iterates file it walked error ops visited)
    (base : it.base = view.base) (size : v.dataSize = view.base.dataSize)
    (sound : view.verification = .onRead → v.Sound (view.base.mapping.deref file))
    (enough : (itemsOf walked error ops visited).length + 2 ≤ fuel) :
    wp (Entries.drain file view fuel it)
      (fun out v' => (v.Sound (view.base.mapping.deref file) →
          v'.Sound (view.base.mapping.deref file)) ∧
        v.Same v' ∧ ∃ reported, out = reported ++ error.toList.map .error ∧
        List.Forall₂ (Reported (view.base.mapping.deref file) view.verification v)
          (itemsOf walked error ops visited) reported)
      (fun _ _ => False) v := by
  induction items : itemsOf walked error ops visited generalizing it walked visited v fuel with
  | nil =>
      obtain ⟨fuel, rfl⟩ := Nat.exists_eq_add_of_le' enough
      have step := next_spec iterates
      rw [items] at step
      obtain ⟨it', read, finished, pending⟩ := step
      cases error with
      | none =>
          have ends : Entries.next file view it v = (.ok (none, it'), v) := by
            rw [Entries.next, bind_run, lift_run, read]
            simp only [pending]
            rfl
          refine wp_bind ?_
          rw [wp, ends]
          exact wp_pure ⟨id, SegmentVerifier.Same.refl v, [], by simp, .nil⟩
      | some failure =>
          have first : Entries.next file view it v =
              (.ok (some (.error failure), { it' with pendingError := none }), v) := by
            rw [Entries.next, bind_run, lift_run, read]
            simp only [pending]
            rfl
          have second : Entries.next file view { it' with pendingError := none } v =
              (.ok (none, { it' with pendingError := none }), v) := by
            rw [Entries.next, bind_run, lift_run, RawEntries.next]
            simp only [finished, if_true]
            rfl
          refine wp_bind ?_
          rw [wp, first]
          refine wp_bind (wp_bind ?_)
          rw [wp, second]
          exact wp_pure (wp_pure ⟨id, SegmentVerifier.Same.refl v, [], by simp, .nil⟩)
  | cons item rest ih =>
      rw [items, List.length_cons] at enough
      obtain ⟨left, rfl⟩ : ∃ left, fuel = left + 1 := ⟨fuel - 1, by omega⟩
      have step := next_spec iterates
      have member : item ∈ itemsOf walked error ops visited := by simp [items]
      have inside : ∀ start stop, item.range = some (start, stop) →
          start ≤ stop ∧ stop ≤ v.dataSize := by
        intro start stop range
        rw [size, ← base]
        exact item_inside iterates.inside iterates.word iterates.walk member range
      rw [items] at step
      obtain ⟨it', walked', visited', read, iterates', rest_eq, sameBase, _⟩ := step
      have pair := wp_verifyPair (view.base.mapping.deref file) rfl sound inside
      refine wp_bind (wp_bind ?_)
      rw [read]
      refine wp_lift ?_ nofun
      rintro _ ⟨⟩
      refine wp_bind (wp_mono pair ?_ fun _ _ => id)
      rintro r v1 ⟨sound1, same1, outcome⟩
      have reported : ∀ reported : Except Error Entry,
          Reported (view.base.mapping.deref file) view.verification v item reported →
          wp (do return reported :: (← Entries.drain file view left it'))
            (fun out v' => (v.Sound (view.base.mapping.deref file) →
                v'.Sound (view.base.mapping.deref file)) ∧
              v.Same v' ∧ ∃ reported, out = reported ++ error.toList.map .error ∧
              List.Forall₂ (Reported (view.base.mapping.deref file) view.verification v)
                (item :: rest) reported)
            (fun _ _ => False) v1 := by
        intro reported report
        refine wp_bind (wp_mono (ih iterates' (sameBase.trans base) (same1.dataSize.trans size)
          (fun mode => sound1 (sound mode)) (by rw [rest_eq]; omega) rest_eq) ?_ fun _ _ => id)
        rintro out v2 ⟨sound2, same2, others, rfl, all⟩
        refine wp_pure ⟨sound2 ∘ sound1, same1.trans same2, reported :: others, rfl, .cons report ?_⟩
        exact all.imp fun _ _ => (Reported.same same1).mp
      cases r with
      | ok _ => exact wp_pure (reported _ (.inl ⟨outcome, rfl⟩))
      | error failure => exact wp_pure (reported _ (.inr ⟨outcome, failure, rfl⟩))

/-- The iterator of a view, before its first step. -/
theorem iterates_new (C : Crates) {trusted : Bool} {baseLen : Nat}
    (inside : view.base.dataSize ≤ (view.base.mapping.deref file).length)
    (word : view.base.dataSize < 2 ^ 64)
    (walk : walkBase (view.base.mapping.deref file) view.base.dataSize baseLen
      (baseHeader + view.base.slots * slotSize) = (walked, error))
    (safe : trusted = true → error = none) (decodes : view.overlay.Decodes file ops)
    (visits : view.overlay.Visits C file visited) :
    Iterates file (RawEntries.new C view trusted baseLen) walked error ops visited :=
  ⟨rfl, rfl, inside, word, walk, safe, decodes, visits⟩

theorem Iterates.walked_le (iterates : Iterates file it walked error ops visited) :
    walked.length ≤ it.baseRemaining := by
  have few := @walkBase_length_le (it.base.mapping.deref file) it.base.dataSize it.baseRemaining
    it.baseOffset
  rwa [iterates.walk] at few

theorem Iterates.live_le (iterates : Iterates file it walked error ops visited) :
    (liveOps visited).length ≤ it.rest.length := by
  rw [iterates.rest.length_eq]
  exact List.length_filterMap_le _ _

theorem Iterates.length_le (iterates : Iterates file it walked error ops visited) :
    (itemsOf walked error ops visited).length + 2 ≤ it.bound := by
  have records := iterates.walked_le
  have unshadowed := List.length_filter_le (fun p : Nat × Entry => !shadows ops p.2.1) walked
  have live := iterates.live_le
  unfold itemsOf RawEntries.bound
  rw [List.length_append, List.length_map]
  split
  · simp only [List.length_nil]
    omega
  · rw [List.length_map]
    omega

/-- A complete iteration over a view. -/
theorem wp_iterAll (C : Crates) {baseLen : Nat}
    (inside : view.base.dataSize ≤ (view.base.mapping.deref file).length)
    (word : view.base.dataSize < 2 ^ 64)
    (walk : walkBase (view.base.mapping.deref file) view.base.dataSize baseLen
      (baseHeader + view.base.slots * slotSize) = (walked, error))
    (safe : v.semanticallyVerified = true → error = none)
    (decodes : view.overlay.Decodes file ops) (visits : view.overlay.Visits C file visited)
    (size : v.dataSize = view.base.dataSize)
    (sound : view.verification = .onRead → v.Sound (view.base.mapping.deref file)) :
    wp (view.iterAll C file baseLen)
      (fun out v' => (v.Sound (view.base.mapping.deref file) →
          v'.Sound (view.base.mapping.deref file)) ∧
        v.Same v' ∧ ∃ reported, out = reported ++ error.toList.map .error ∧
        List.Forall₂ (Reported (view.base.mapping.deref file) view.verification v)
          (itemsOf walked error ops visited) reported)
      (fun _ _ => False) v :=
  have iterates := iterates_new C inside word walk safe decodes visits
  wp_bind (wp_state (wp_drain iterates rfl size sound iterates.length_le))

/-- An iteration whose walk ends well and whose blocks match yields every pair. -/
theorem iterAll_eq (C : Crates) {baseLen : Nat}
    (inside : view.base.dataSize ≤ (view.base.mapping.deref file).length)
    (word : view.base.dataSize < 2 ^ 64)
    (walk : walkBase (view.base.mapping.deref file) view.base.dataSize baseLen
      (baseHeader + view.base.slots * slotSize) = (walked, none))
    (decodes : view.overlay.Decodes file ops) (visits : view.overlay.Visits C file visited)
    (size : v.dataSize = view.base.dataSize)
    (sound : view.verification = .onRead → v.Sound (view.base.mapping.deref file))
    (all : view.verification = .onRead → AllMatch (view.base.mapping.deref file) v) :
    ∃ v', view.iterAll C file baseLen v =
        (.ok ((itemsOf walked none ops visited).map fun item => .ok (item.key, item.value)), v') ∧
      (v.Sound (view.base.mapping.deref file) → v'.Sound (view.base.mapping.deref file)) ∧
      v.Same v' := by
  have spec := wp_iterAll C inside word walk (fun _ => rfl) decodes visits size sound
  obtain ⟨_, v', ran, sound', same, reported, rfl, reports⟩ := wp_returns spec fun _ _ => id
  refine ⟨v', ?_, sound', same⟩
  rw [ran, reported_eq (fun item member => ?_) reports]
  · simp
  · refine passes_of_allMatch sound all fun start stop range => ?_
    rw [size]
    exact item_inside inside word walk member range

end Runs

/-! ## Counting, and reading while the file is written -/

section Count

variable {file file' : File} {it : RawEntries} {walked : List (Nat × Entry)} {error : Option Error}
variable {ops visited : List Operation} {base : BaseView} {overlay : OverlayMap}

theorem count_spec {fuel : Nat} (iterates : Iterates file it walked error ops visited) (n : Nat)
    (enough : (itemsOf walked error ops visited).length < fuel) :
    ∃ it', RawEntries.count file fuel it n =
        .ok (n + (itemsOf walked error ops visited).length, it') ∧ it'.pendingError = error := by
  induction items : itemsOf walked error ops visited generalizing it walked visited fuel n with
  | nil =>
      obtain ⟨left, rfl⟩ : ∃ left, fuel = left + 1 := ⟨fuel - 1, by omega⟩
      have step := next_spec iterates
      rw [items] at step
      obtain ⟨it', read, -, pending, -⟩ := step
      refine ⟨it', ?_, pending⟩
      rw [RawEntries.count, read]
      rfl
  | cons item rest ih =>
      rw [items, List.length_cons] at enough
      obtain ⟨left, rfl⟩ : ∃ left, fuel = left + 1 := ⟨fuel - 1, by omega⟩
      have step := next_spec iterates
      rw [items] at step
      obtain ⟨it', walked', visited', read, iterates', rest_eq, -, -⟩ := step
      obtain ⟨last, ran, pending⟩ :=
        ih iterates' (n + 1) (show _ < left by rw [rest_eq]; omega) rest_eq
      refine ⟨last, ?_, pending⟩
      rw [RawEntries.count, read, ok_bind]
      dsimp only
      rw [ran, List.length_cons, Nat.add_assoc, Nat.add_comm 1]

theorem rawLen_eq (iterates : Iterates file it walked none ops visited) :
    it.rawLen file = .ok (itemsOf walked none ops visited).length := by
  have enough := iterates.length_le
  obtain ⟨last, ran, pending⟩ := count_spec iterates 0 (show _ < it.bound by omega)
  rw [RawEntries.rawLen, ran, ok_bind]
  dsimp only
  rw [pending, Nat.zero_add]
  rfl

theorem nextBase_congr (sameBase : base.mapping.deref file' = base.mapping.deref file)
    (sameLog : overlay.log file' = overlay.log file) (trusted : Bool) (remaining offset : Nat) :
    RawEntries.nextBase file' base overlay trusted remaining offset =
      RawEntries.nextBase file base overlay trusted remaining offset := by
  induction remaining generalizing offset with
  | zero => rfl
  | succ remaining ih =>
      unfold RawEntries.nextBase
      simp only [sameBase, ih, OverlayMap.containsKey, OverlayMap.getHashed_congr sameLog]

/-- A step of the iterator depends on the file only through its two mappings. -/
theorem next_congr (sameBase : it.base.mapping.deref file' = it.base.mapping.deref file)
    (sameLog : it.overlay.log file' = it.overlay.log file) : it.next file' = it.next file := by
  have overlayStep : ∀ offset remaining, (it.seek offset remaining).nextOverlay file' =
      (it.seek offset remaining).nextOverlay file := by
    intro offset remaining
    show (nextLive (it.overlay.log file') it.rest >>= _) = (nextLive (it.overlay.log file) it.rest >>= _)
    rw [sameLog]
  unfold RawEntries.next
  rw [nextBase_congr sameBase sameLog]
  simp only [overlayStep]

/-- An iterator stays with its view. -/
theorem next_keeps {found : Option Item} {it' : RawEntries} (read : it.next file = .ok (found, it')) :
    it'.base = it.base ∧ it'.overlay = it.overlay := by
  have overlay : ∀ it₁ : RawEntries, it₁.nextOverlay file = .ok (found, it') →
      it'.base = it₁.base ∧ it'.overlay = it₁.overlay := by
    intro it₁ read
    obtain ⟨⟨live, rest⟩, -, result⟩ := bind_eq_ok.mp read
    cases live with
    | none =>
        cases result
        exact ⟨rfl, rfl⟩
    | some pair =>
        cases result
        exact ⟨rfl, rfl⟩
  unfold RawEntries.next at read
  split at read
  · cases read
    exact ⟨rfl, rfl⟩
  obtain ⟨step, -, result⟩ := bind_eq_ok.mp read
  cases step with
  | item found offset remaining =>
      cases result
      exact ⟨rfl, rfl⟩
  | failed error offset remaining =>
      cases result
      exact ⟨rfl, rfl⟩
  | exhausted offset =>
      dsimp only at result
      split at result
      · cases result
        exact ⟨rfl, rfl⟩
      · exact overlay (it.seek offset 0) result

theorem entriesNext_keeps {view : ReadView} {v v' : SegmentVerifier}
    {found : Option (Except Error Entry)} {it' : RawEntries}
    (ran : Entries.next file view it v = (.ok (found, it'), v')) :
    it'.base = it.base ∧ it'.overlay = it.overlay := by
  have kept : Prog.wp (Entries.next file view it)
      (fun r _ => r.2.base = it.base ∧ r.2.overlay = it.overlay) (fun _ _ => True) v := by
    unfold Entries.next
    refine Prog.wp_bind (Prog.wp_lift (fun r read => ?_) fun _ _ => trivial)
    obtain ⟨found, it₁⟩ := r
    have same := next_keeps read
    cases found with
    | none =>
        dsimp only
        split
        · exact Prog.wp_pure same
        · exact Prog.wp_pure same
    | some item =>
        refine Prog.wp_bind (Prog.wp_mono (Q := fun _ _ => True) (E := fun _ _ => True) ?_ ?_ ?_)
        · unfold Prog.wp
          split <;> trivial
        · rintro (_ | _) _ -
          · exact Prog.wp_pure same
          · exact Prog.wp_pure same
        · exact fun _ _ _ => trivial
  have post := Prog.wp_ok kept ran
  exact post

end Count

/-! ## Reading through other bytes of the file -/

section Congr

variable {file file' : File} {view : ReadView}
variable (sameBase : view.base.mapping.deref file' = view.base.mapping.deref file)
variable (sameLog : view.overlay.log file' = view.overlay.log file)
include sameBase sameLog

theorem entriesNext_congr {it : RawEntries} (base : it.base = view.base)
    (overlay : it.overlay = view.overlay) : Entries.next file' view it = Entries.next file view it := by
  have step : it.next file' = it.next file := next_congr (base ▸ sameBase) (overlay ▸ sameLog)
  unfold Entries.next ReadView.verifyPair
  rw [step, sameBase]

theorem drain_congr {it : RawEntries} (base : it.base = view.base) (overlay : it.overlay = view.overlay)
    (fuel : Nat) : Entries.drain file' view fuel it = Entries.drain file view fuel it := by
  induction fuel generalizing it with
  | zero => rfl
  | succ fuel ih =>
      funext v
      unfold Entries.drain
      rw [entriesNext_congr sameBase sameLog base overlay, Prog.bind_run, Prog.bind_run]
      cases ran : Entries.next file view it v with
      | mk result v' =>
          cases result with
          | error e => rfl
          | ok r =>
              obtain ⟨found, it'⟩ := r
              obtain ⟨base', overlay'⟩ := entriesNext_keeps ran
              cases found with
              | none => rfl
              | some item =>
                  dsimp only
                  rw [@ih it' (base'.trans base) (overlay'.trans overlay)]

theorem iterAll_congr (C : Crates) (len : Nat) :
    view.iterAll C file' len = view.iterAll C file len := by
  unfold ReadView.iterAll
  congr 1
  funext v
  exact drain_congr sameBase sameLog rfl rfl _

theorem get_congr (C : Crates) (key : Bytes) : view.get C file' key = view.get C file key := by
  unfold ReadView.get
  rw [OverlayMap.getHashed_congr sameLog, sameBase]

end Congr

end Lkv
