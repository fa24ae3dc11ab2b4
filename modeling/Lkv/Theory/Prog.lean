/-
# Lkv.Theory.Prog — stateful programs that may stop, and what they establish

`Prog σ ε α` runs on a state `σ` and either returns an `α` or stops with an
`ε`; the state it reached is kept in both cases, because what a failed
operation leaves behind is as much a result as what a successful one returns.

`wp m Q E s` says that running `m` from `s` ends in `Q` when it returns and in
`E` when it stops.  The rules below push `wp` through the constructors, so a
program is verified by citing one `wp` lemma per call.
-/
import Mathlib.Logic.Basic
import Mathlib.Order.Defs.Unbundled

namespace Lkv.Theory

set_option autoImplicit false

/-- A program over the state `σ`: it returns an `α` or stops with an `ε`. -/
def Prog (σ ε α : Type) : Type := σ → Except ε α × σ

namespace Prog

variable {σ τ ε δ α β : Type}

protected def pure (a : α) : Prog σ ε α := fun s => (.ok a, s)

protected def bind (m : Prog σ ε α) (k : α → Prog σ ε β) : Prog σ ε β := fun s =>
  match m s with
  | (.ok a, s') => k a s'
  | (.error e, s') => (.error e, s')

instance : Monad (Prog σ ε) where
  pure := Prog.pure
  bind := Prog.bind

def stop (e : ε) : Prog σ ε α := fun s => (.error e, s)

def state : Prog σ ε σ := fun s => (.ok s, s)

def modify (f : σ → σ) : Prog σ ε Unit := fun s => (.ok (), f s)

/-- Run a stateless computation. -/
def lift (r : Except ε α) : Prog σ ε α := fun s => (r, s)

/-- Turn the stops that `select` picks into a returned error; other stops pass through. -/
def attempt (select : ε → Option δ) (m : Prog σ ε α) : Prog σ ε (Except δ α) := fun s =>
  match m s with
  | (.ok a, s') => (.ok (.ok a), s')
  | (.error e, s') =>
      match select e with
      | some d => (.ok (.error d), s')
      | none => (.error e, s')

/-- Run a program under a condition. -/
def onlyIf (c : Bool) (m : Prog σ ε Unit) : Prog σ ε Unit := if c then m else pure ()

/-- Run a program on a component of the state. -/
def zoom (view : σ → τ) (put : τ → σ → σ) (m : Prog τ ε α) : Prog σ ε α := fun s =>
  match m (view s) with
  | (r, t) => (r, put t s)

/-- Report the stops of a program in other terms. -/
def recast (f : ε → δ) (m : Prog σ ε α) : Prog σ δ α := fun s =>
  match m s with
  | (.ok a, s') => (.ok a, s')
  | (.error e, s') => (.error (f e), s')

/-! ## Running the constructors -/

@[simp] theorem pure_run (a : α) (s : σ) : (pure a : Prog σ ε α) s = (.ok a, s) := rfl

theorem bind_run (m : Prog σ ε α) (k : α → Prog σ ε β) (s : σ) :
    (m >>= k) s = match m s with
      | (.ok a, s') => k a s'
      | (.error e, s') => (.error e, s') := rfl

theorem bind_ok {m : Prog σ ε α} {k : α → Prog σ ε β} {s s' : σ} {a : α}
    (ran : m s = (.ok a, s')) : (m >>= k) s = k a s' := by
  rw [bind_run, ran]

theorem bind_error {m : Prog σ ε α} {k : α → Prog σ ε β} {s s' : σ} {e : ε}
    (ran : m s = (.error e, s')) : (m >>= k) s = (.error e, s') := by
  rw [bind_run, ran]

@[simp] theorem stop_run (e : ε) (s : σ) : (stop e : Prog σ ε α) s = (.error e, s) := rfl

@[simp] theorem state_run (s : σ) : (state : Prog σ ε σ) s = (.ok s, s) := rfl

@[simp] theorem modify_run (f : σ → σ) (s : σ) :
    (modify f : Prog σ ε Unit) s = (.ok (), f s) := rfl

@[simp] theorem lift_run (r : Except ε α) (s : σ) : (lift r : Prog σ ε α) s = (r, s) := rfl

/-! ## Weakest preconditions -/

/-- `m` run from `s` ends in `Q` if it returns and in `E` if it stops. -/
def wp (m : Prog σ ε α) (Q : α → σ → Prop) (E : ε → σ → Prop) (s : σ) : Prop :=
  match m s with
  | (.ok a, s') => Q a s'
  | (.error e, s') => E e s'

variable {Q Q' : α → σ → Prop} {E E' : ε → σ → Prop} {s : σ}

theorem wp_pure {a : α} (post : Q a s) : wp (pure a : Prog σ ε α) Q E s := post

theorem wp_stop {e : ε} (post : E e s) : wp (stop e : Prog σ ε α) Q E s := post

theorem wp_lift {r : Except ε α} (ok : ∀ a, r = .ok a → Q a s)
    (error : ∀ e, r = .error e → E e s) : wp (lift r) Q E s := by
  unfold wp
  cases r with
  | ok a => exact ok a rfl
  | error e => exact error e rfl

theorem wp_lift_ok {a : α} (post : Q a s) : wp (lift (.ok a)) Q E s := post

theorem wp_lift_error {e : ε} (post : E e s) : wp (lift (.error e : Except ε α)) Q E s := post

theorem wp_state {Q : σ → σ → Prop} (post : Q s s) :
    wp (state : Prog σ ε σ) Q E s := post

theorem wp_modify {Q : Unit → σ → Prop} {f : σ → σ} (post : Q () (f s)) :
    wp (modify f : Prog σ ε Unit) Q E s := post

theorem wp_bind {m : Prog σ ε α} {k : α → Prog σ ε β} {Q : β → σ → Prop}
    (h : wp m (fun a s' => wp (k a) Q E s') E s) : wp (m >>= k) Q E s := by
  unfold wp at h ⊢
  rw [bind_run]
  split at h
  · exact h
  · exact h

theorem wp_mono {m : Prog σ ε α} (h : wp m Q E s) (ok : ∀ a s', Q a s' → Q' a s')
    (error : ∀ e s', E e s' → E' e s') : wp m Q' E' s := by
  unfold wp at h ⊢
  split at h
  · exact ok _ _ h
  · exact error _ _ h

theorem wp_attempt {select : ε → Option δ} {m : Prog σ ε α} {Q : Except δ α → σ → Prop}
    (h : wp m (fun a s' => Q (.ok a) s')
      (fun e s' => match select e with
        | some d => Q (.error d) s'
        | none => E e s') s) : wp (attempt select m) Q E s := by
  unfold wp at h ⊢
  unfold attempt
  revert h
  rcases m s with ⟨⟨e⟩ | ⟨a⟩, s'⟩
  · dsimp only
    cases select e <;> exact id
  · exact id

theorem wp_onlyIf {c : Bool} {m : Prog σ ε Unit} {Q : Unit → σ → Prop}
    (run : c = true → wp m Q E s) (skip : c = false → Q () s) : wp (onlyIf c m) Q E s := by
  cases c with
  | true => exact run rfl
  | false => exact skip rfl

theorem wp_zoom {view : σ → τ} {put : τ → σ → σ} {m : Prog τ ε α}
    (h : wp m (fun a t => Q a (put t s)) (fun e t => E e (put t s)) (view s)) :
    wp (zoom view put m) Q E s := by
  unfold wp at h ⊢
  unfold zoom
  revert h
  rcases m (view s) with ⟨⟨e⟩ | ⟨a⟩, t⟩ <;> exact id

theorem wp_recast {f : ε → δ} {m : Prog σ ε α} {E : δ → σ → Prop}
    (h : wp m Q (fun e s' => E (f e) s') s) : wp (recast f m) Q E s := by
  unfold wp at h ⊢
  unfold recast
  revert h
  rcases m s with ⟨⟨e⟩ | ⟨a⟩, s'⟩ <;> exact id

/-- What a run that returned established. -/
theorem wp_ok {m : Prog σ ε α} {a : α} {s' : σ} (h : wp m Q E s) (ran : m s = (.ok a, s')) :
    Q a s' := by
  unfold wp at h
  rw [ran] at h
  exact h

/-- What a run that stopped established. -/
theorem wp_error {m : Prog σ ε α} {e : ε} {s' : σ} (h : wp m Q E s)
    (ran : m s = (.error e, s')) : E e s' := by
  unfold wp at h
  rw [ran] at h
  exact h

/-- A branch whose two ways go on alike. -/
theorem wp_ite_bind {c : Prop} [Decidable c] {one two : Prog σ ε α} {k : α → Prog σ ε β}
    {Q : β → σ → Prop} (h : wp (if c then one else two) (fun a s' => wp (k a) Q E s') E s) :
    wp (if c then one >>= k else two >>= k) Q E s := by
  split
  · rename_i yes
    rw [if_pos yes] at h
    exact wp_bind h
  · rename_i no
    rw [if_neg no] at h
    exact wp_bind h

/-- The run itself may be remembered. -/
theorem wp_ran {m : Prog σ ε α} (h : wp m Q E s) :
    wp m (fun a s' => Q a s' ∧ m s = (.ok a, s')) (fun e s' => E e s' ∧ m s = (.error e, s')) s := by
  unfold wp at *
  split at h
  · rename_i ran
    exact ⟨h, ran⟩
  · rename_i ran
    exact ⟨h, ran⟩

/-- What holds however the program ends. -/
theorem wp_final {m : Prog σ ε α} {P : σ → Prop} (h : wp m (fun _ => P) (fun _ => P) s) : P (m s).2 := by
  unfold wp at h
  split at h
  · rename_i ran
    rwa [ran]
  · rename_i ran
    rwa [ran]

/-- A program that cannot stop returns. -/
theorem wp_returns {m : Prog σ ε α} (h : wp m Q E s) (never : ∀ e s', ¬E e s') :
    ∃ a s', m s = (.ok a, s') ∧ Q a s' := by
  unfold wp at h
  cases ran : m s with
  | mk r s' =>
      rw [ran] at h
      cases r with
      | ok a => exact ⟨a, s', rfl, h⟩
      | error e => exact absurd h (never e s')

/-! ## Relations along a run -/

/-- Every run that returns leads to a state related to the one it began in. -/
def Along (R : σ → σ → Prop) (m : Prog σ ε α) : Prop :=
  ∀ s, wp m (fun _ s' => R s s') (fun _ _ => True) s

/-- No run returns. -/
def Stops (m : Prog σ ε α) : Prop := Along (fun _ _ => False) m

section Along

variable {R : σ → σ → Prop} {m : Prog σ ε α} {k : α → Prog σ ε β}

theorem along_pure [Std.Refl R] (a : α) : Along R (pure a : Prog σ ε α) := fun s => refl_of R s

theorem along_state [Std.Refl R] : Along R (state : Prog σ ε σ) := fun s => refl_of R s

theorem along_lift [Std.Refl R] (r : Except ε α) : Along R (lift r : Prog σ ε α) := fun s =>
  wp_lift (fun _ _ => refl_of R s) fun _ _ => trivial

theorem along_modify {f : σ → σ} (step : ∀ s, R s (f s)) : Along R (modify f : Prog σ ε Unit) := step

theorem along_bind [IsTrans σ R] (first : Along R m) (rest : ∀ a, Along R (k a)) :
    Along R (m >>= k) := by
  intro s
  refine wp_bind (wp_mono (first s) (fun a s₁ one => ?_) fun _ _ => id)
  exact wp_mono (rest a s₁) (fun _ _ two => trans_of R one two) fun _ _ => id

theorem along_stop (e : ε) : Along R (stop e : Prog σ ε α) := fun _ => trivial

/-- What the last part alone ensures. -/
theorem along_bind_last {P : σ → Prop} (last : ∀ a, Along (fun _ => P) (k a)) :
    Along (fun _ => P) (m >>= k) := by
  intro s
  refine wp_bind ?_
  unfold wp
  split
  · exact last _ _
  · trivial

theorem along_onlyIf [Std.Refl R] {c : Bool} {m : Prog σ ε Unit} (along : Along R m) :
    Along R (onlyIf c m) := fun s =>
  wp_onlyIf (fun _ => along s) fun _ => refl_of R s

theorem along_zoom {S : τ → τ → Prop} {view : σ → τ} {put : τ → σ → σ} {m : Prog τ ε α}
    (along : Along S m) (lift : ∀ s t, S (view s) t → R s (put t s)) : Along R (zoom view put m) :=
  fun s => wp_zoom (wp_mono (along (view s)) (fun _ t => lift s t) fun _ _ => id)

/-- A program that goes on only if the first one returned. -/
theorem along_attempt_bind [IsTrans σ R] {select : ε → Option δ} {k : Except δ α → Prog σ ε β}
    (first : Along R m) (ok : ∀ a, Along R (k (.ok a))) (error : ∀ d, Stops (k (.error d))) :
    Along R (attempt select m >>= k) := by
  intro s
  refine wp_bind (wp_attempt (wp_mono (first s) (fun a s₁ one => ?_) fun e s₁ _ => ?_))
  · exact wp_mono (ok a s₁) (fun _ _ two => trans_of R one two) fun _ _ => id
  · cases select e with
    | none => trivial
    | some d => exact wp_mono (error d s₁) (fun _ _ => False.elim) fun _ _ => id

theorem wp_along {Q : α → σ → Prop} {E : ε → σ → Prop} {s : σ} (along : Along R m) (h : wp m Q E s) :
    wp m (fun a s' => R s s' ∧ Q a s') E s := by
  have along := along s
  unfold wp at *
  split at h
  · rename_i ran
    rw [ran] at along
    exact ⟨along, h⟩
  · exact h

end Along

/-! ## The ways to stop -/

/-- Every stop of the program is one of these, whatever state it began in. -/
def Raises (P : ε → Prop) (m : Prog σ ε α) : Prop :=
  ∀ s, wp m (fun _ _ => True) (fun e _ => P e) s

section Raises

variable {P : ε → Prop} {m : Prog σ ε α} {k : α → Prog σ ε β}

theorem raises_pure (a : α) : Raises P (pure a : Prog σ ε α) := fun _ => trivial

theorem raises_state : Raises P (state : Prog σ ε σ) := fun _ => trivial

theorem raises_modify (f : σ → σ) : Raises P (modify f : Prog σ ε Unit) := fun _ => trivial

theorem raises_stop {e : ε} (one : P e) : Raises P (stop e : Prog σ ε α) := fun _ => one

theorem raises_lift {r : Except ε α} (all : ∀ e, r = .error e → P e) :
    Raises P (lift r : Prog σ ε α) := fun _ => wp_lift (fun _ _ => trivial) all

theorem raises_bind (first : Raises P m) (rest : ∀ a, Raises P (k a)) : Raises P (m >>= k) :=
  fun s => wp_bind (wp_mono (first s) (fun a s₁ _ => rest a s₁) fun _ _ => id)

theorem raises_zoom {view : τ → σ} {put : σ → τ → τ} (raises : Raises P m) :
    Raises P (zoom view put m) := fun s => wp_zoom (raises (view s))

theorem raises_recast {P : δ → Prop} {f : ε → δ} (all : ∀ e, P (f e)) : Raises P (recast f m) := by
  intro s
  refine wp_recast ?_
  unfold wp
  split
  · trivial
  · exact all _

theorem wp_raises {Q : α → σ → Prop} {E : ε → σ → Prop} {s : σ} (raises : Raises P m)
    (h : wp m Q E s) : wp m Q (fun e s' => P e ∧ E e s') s := by
  have raises := raises s
  unfold wp at *
  split at h
  · exact h
  · rename_i ran
    rw [ran] at raises
    exact ⟨raises, h⟩

/-- A caught stop is still one of these where it is raised again. -/
theorem raises_attempt {select : ε → Option δ} (raises : Raises P m) :
    Raises P (attempt select m) := by
  intro s
  refine wp_attempt (wp_mono (raises s) (fun _ _ => id) fun e s' one => ?_)
  split
  · trivial
  · exact one

end Raises

/-! ## What a program leaves as it was -/

/-- However the program ends, `f` of the state is what it was. -/
def Preserves (f : σ → β) (m : Prog σ ε α) : Prop :=
  ∀ s, wp m (fun _ s' => f s' = f s) (fun _ s' => f s' = f s) s

section Preserves

variable {γ : Type} {f : σ → β} {m : Prog σ ε α} {k : α → Prog σ ε γ}

theorem preserves_pure (a : α) : Preserves f (pure a : Prog σ ε α) := fun _ => rfl

theorem preserves_state : Preserves f (state : Prog σ ε σ) := fun _ => rfl

theorem preserves_stop {e : ε} : Preserves f (stop e : Prog σ ε α) := fun _ => rfl

theorem preserves_modify {g : σ → σ} (same : ∀ s, f (g s) = f s) :
    Preserves f (modify g : Prog σ ε Unit) := same

theorem preserves_bind (first : Preserves f m) (rest : ∀ a, Preserves f (k a)) :
    Preserves f (m >>= k) := by
  intro s
  refine wp_bind (wp_mono (first s) (fun a s₁ one => ?_) fun _ _ => id)
  exact wp_mono (rest a s₁) (fun _ _ two => two.trans one) fun _ _ two => two.trans one

theorem preserves_zoom {view : σ → τ} {put : τ → σ → σ} {m : Prog τ ε α}
    (same : ∀ t s, f (put t s) = f s) : Preserves f (zoom view put m) := by
  intro s
  unfold wp zoom
  rcases m (view s) with ⟨⟨e⟩ | ⟨a⟩, t⟩ <;> exact same t s

theorem preserves_lift (r : Except ε α) : Preserves f (lift r : Prog σ ε α) := fun _ =>
  wp_lift (fun _ _ => rfl) fun _ _ => rfl

end Preserves

/-- However the program ends, `P` holds if it held before. -/
def Maintains (P : σ → Prop) (m : Prog σ ε α) : Prop :=
  ∀ s, P s → wp m (fun _ => P) (fun _ => P) s

section Maintains

variable {γ : Type} {P : σ → Prop} {m : Prog σ ε α} {k : α → Prog σ ε γ}

theorem Preserves.maintains {f : σ → β} {P : β → Prop} (keeps : Preserves f m) :
    Maintains (fun s => P (f s)) m := fun s holds =>
  wp_mono (keeps s) (fun _ _ same => same.symm ▸ holds) fun _ _ same => same.symm ▸ holds

theorem maintains_bind (first : Maintains P m) (rest : ∀ a, Maintains P (k a)) :
    Maintains P (m >>= k) := fun s holds =>
  wp_bind (wp_mono (first s holds) (fun a s' => rest a s') fun _ _ => id)

theorem maintains_attempt {select : ε → Option δ} (maintains : Maintains P m) :
    Maintains P (attempt select m) := by
  intro s holds
  refine wp_attempt (wp_mono (maintains s holds) (fun _ _ => id) fun e s' kept => ?_)
  split <;> exact kept

end Maintains

end Prog

end Lkv.Theory
