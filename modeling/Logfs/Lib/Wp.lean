import Mathlib.Tactic

/-!
# Weakest preconditions for state machines that can stop

`Wp m Q E s` says that the program `m`, run from state `s`, either returns a
value and a state satisfying `Q`, or stops with an exception and a state
satisfying `E`.  Stopped runs keep their state, so `E` can speak about what a
run had done before it stopped.  `Runs` is the total form: the program returns.
`Keeps` is the form for invariants: what holds however the program ends.
`Extends` compares two programs, the second of which may return more often.
-/

namespace Logfs

variable {ε σ α β : Type}

/-- The run of `m` from `s` ends in `Q` when it returns and in `E` when it stops. -/
def Wp (m : EStateM ε σ α) (Q : α → σ → Prop) (E : ε → σ → Prop) (s : σ) : Prop :=
  match m s with
  | .ok a s' => Q a s'
  | .error e s' => E e s'

/-- The run of `m` from `s` returns, in a state satisfying `Q`. -/
abbrev Runs (m : EStateM ε σ α) (Q : α → σ → Prop) (s : σ) : Prop :=
  Wp m Q (fun _ _ => False) s

section Rules

variable {Q Q' : α → σ → Prop} {E E' : ε → σ → Prop} {s : σ}

theorem Wp.mono {m : EStateM ε σ α} (h : Wp m Q E s) (hQ : ∀ a s', Q a s' → Q' a s')
    (hE : ∀ e s', E e s' → E' e s') : Wp m Q' E' s := by
  unfold Wp at *
  cases hm : m s with
  | ok a s' => rw [hm] at h; exact hQ a s' h
  | error e s' => rw [hm] at h; exact hE e s' h

/-- Weakening of the postcondition alone. -/
theorem Wp.imp {m : EStateM ε σ α} (h : Wp m Q E s) (hQ : ∀ a s', Q a s' → Q' a s') :
    Wp m Q' E s :=
  h.mono hQ fun _ _ he => he

/-- Two specifications of a program. -/
theorem Wp.and {m : EStateM ε σ α} (h : Wp m Q E s) (h' : Wp m Q' E' s) :
    Wp m (fun a s' => Q a s' ∧ Q' a s') (fun e s' => E e s' ∧ E' e s') s := by
  unfold Wp at *
  cases hm : m s with
  | ok a s' => rw [hm] at h h'; exact ⟨h, h'⟩
  | error e s' => rw [hm] at h h'; exact ⟨h, h'⟩

/-- Two specifications of a program, one of which says that it returns. -/
theorem Runs.and {m : EStateM ε σ α} (h : Runs m Q s) (h' : Wp m Q' E s) :
    Runs m (fun a s' => Q a s' ∧ Q' a s') s :=
  (Wp.and h h').mono (fun _ _ h => h) fun _ _ h => h.1

@[simp] theorem wp_pure (a : α) : Wp (pure a) Q E s ↔ Q a s := Iff.rfl

@[simp] theorem wp_throw (e : ε) : Wp (throw e : EStateM ε σ α) Q E s ↔ E e s := Iff.rfl

@[simp] theorem wp_get {Q : σ → σ → Prop} : Wp (get : EStateM ε σ σ) Q E s ↔ Q s s := Iff.rfl

@[simp] theorem wp_set {Q : PUnit → σ → Prop} (s' : σ) :
    Wp (set s' : EStateM ε σ PUnit) Q E s ↔ Q ⟨⟩ s' := Iff.rfl

@[simp] theorem wp_modify {Q : PUnit → σ → Prop} (f : σ → σ) :
    Wp (modify f : EStateM ε σ PUnit) Q E s ↔ Q ⟨⟩ (f s) := Iff.rfl

@[simp] theorem wp_bind {m : EStateM ε σ α} {f : α → EStateM ε σ β} {Q : β → σ → Prop} :
    Wp (m >>= f) Q E s ↔ Wp m (fun a s' => Wp (f a) Q E s') E s := by
  show Wp (EStateM.bind m f) Q E s ↔ _
  unfold Wp EStateM.bind
  cases m s <;> rfl

@[simp] theorem wp_map {m : EStateM ε σ α} {f : α → β} {Q : β → σ → Prop} :
    Wp (f <$> m) Q E s ↔ Wp m (fun a s' => Q (f a) s') E s := by
  show Wp (EStateM.map f m) Q E s ↔ _
  unfold Wp EStateM.map
  cases m s <;> rfl

theorem wp_ite {c : Prop} [Decidable c] {m₁ m₂ : EStateM ε σ α} :
    Wp (if c then m₁ else m₂) Q E s ↔ (c → Wp m₁ Q E s) ∧ (¬ c → Wp m₂ Q E s) := by
  by_cases hc : c <;> simp [hc]

/-- Sequencing by a known specification of the first program. -/
theorem Wp.bind {m : EStateM ε σ α} {f : α → EStateM ε σ β} {Q' : β → σ → Prop}
    (h : Wp m Q E s) (hf : ∀ a s', Q a s' → Wp (f a) Q' E s') : Wp (m >>= f) Q' E s :=
  wp_bind.mpr (h.imp hf)

/-- Sequencing, where the first program stops in its own way. -/
theorem Wp.seq {m : EStateM ε σ α} {f : α → EStateM ε σ β} {Q' : β → σ → Prop} (h : Wp m Q E s)
    (hf : ∀ a s', Q a s' → Wp (f a) Q' E' s') (hE : ∀ e s', E e s' → E' e s') :
    Wp (m >>= f) Q' E' s :=
  wp_bind.mpr (h.mono hf hE)

/-- A run ends as it ends. -/
theorem Wp.self (m : EStateM ε σ α) (s : σ) :
    Wp m (fun a s' => m s = .ok a s') (fun e s' => m s = .error e s') s := by
  unfold Wp
  cases hm : m s with
  | ok a s' => rfl
  | error e s' => rfl

/-- A returning run, read off the specification. -/
theorem Wp.of_ok {m : EStateM ε σ α} {a : α} {s' : σ} (h : Wp m Q E s) (hm : m s = .ok a s') :
    Q a s' := by
  unfold Wp at h
  rw [hm] at h
  exact h

/-- A stopped run, read off the specification. -/
theorem Wp.of_error {m : EStateM ε σ α} {e : ε} {s' : σ} (h : Wp m Q E s)
    (hm : m s = .error e s') : E e s' := by
  unfold Wp at h
  rw [hm] at h
  exact h

/-- What a run returns, if it does. -/
def valueOf (m : EStateM ε σ α) (s : σ) : Option α :=
  match m s with
  | .ok a _ => some a
  | .error _ _ => none

/-- The state that a run leaves. -/
def stateOf (m : EStateM ε σ α) (s : σ) : σ :=
  match m s with
  | .ok _ s' => s'
  | .error _ s' => s'

theorem run_eq {m : EStateM ε σ α} {a : α} (h : valueOf m s = some a) :
    m s = .ok a (stateOf m s) := by
  unfold valueOf at h
  unfold stateOf
  cases hrun : m s with
  | ok b s' =>
    rw [hrun] at h
    rw [Option.some_inj.1 h]
  | error e s' =>
    rw [hrun] at h
    cases h

/-- Two continuations give one run if they agree wherever the first program returns. -/
theorem Wp.bind_congr {m : EStateM ε σ α} {f g : α → EStateM ε σ β} {E : ε → σ → Prop}
    (h : Wp m (fun a s' => f a s' = g a s') E s) : (m >>= f) s = (m >>= g) s := by
  unfold Wp at h
  show EStateM.bind m f s = EStateM.bind m g s
  unfold EStateM.bind
  cases hm : m s with
  | ok a s' =>
    rw [hm] at h
    exact h
  | error e s' => rfl

/-- A total specification gives a returning run. -/
theorem Runs.ok {m : EStateM ε σ α} (h : Runs m Q s) : ∃ a s', m s = .ok a s' ∧ Q a s' := by
  unfold Runs Wp at h
  cases hm : m s with
  | ok a s' => rw [hm] at h; exact ⟨a, s', rfl, h⟩
  | error e s' => rw [hm] at h; exact h.elim

end Rules

/-! ## Invariants -/

/-- The program keeps `I` and relates the states before and after by `R`, however it ends. -/
def Keeps (I : σ → Prop) (R : σ → σ → Prop) (m : EStateM ε σ α) : Prop :=
  ∀ s, I s → Wp m (fun _ s' => I s' ∧ R s s') (fun _ s' => I s' ∧ R s s') s

section Keeps

variable {I : σ → Prop} {R : σ → σ → Prop}

theorem Keeps.pure [Std.Refl R] (a : α) : Keeps (ε := ε) I R (pure a) :=
  fun s hs => ⟨hs, Std.Refl.refl s⟩

theorem Keeps.throw [Std.Refl R] (e : ε) : Keeps I R (throw e : EStateM ε σ α) :=
  fun s hs => ⟨hs, Std.Refl.refl s⟩

theorem Keeps.modify {f : σ → σ} (hf : ∀ s, I s → I (f s) ∧ R s (f s)) :
    Keeps (ε := ε) I R (modify f) := hf

/-- What was related before stays related to what comes after. -/
theorem Wp.after [IsTrans σ R] {m : EStateM ε σ α} {s s1 : σ} (h : R s s1)
    (h1 : Wp m (fun _ s' => I s' ∧ R s1 s') (fun _ s' => I s' ∧ R s1 s') s1) :
    Wp m (fun _ s' => I s' ∧ R s s') (fun _ s' => I s' ∧ R s s') s1 :=
  h1.mono (fun _ _ h2 => ⟨h2.1, IsTrans.trans _ _ _ h h2.2⟩)
    fun _ _ h2 => ⟨h2.1, IsTrans.trans _ _ _ h h2.2⟩

theorem Keeps.bind [IsTrans σ R] {m : EStateM ε σ α} {f : α → EStateM ε σ β} (hm : Keeps I R m)
    (hf : ∀ a, Keeps I R (f a)) : Keeps I R (m >>= f) :=
  fun s hs => (hm s hs).bind fun a s1 h1 => (hf a s1 h1.1).after h1.2

theorem Keeps.get_bind {f : σ → EStateM ε σ α} (hf : ∀ s, I s →
    Wp (f s) (fun _ s' => I s' ∧ R s s') (fun _ s' => I s' ∧ R s s') s) :
    Keeps I R (get >>= f) := hf

theorem Keeps.ite {c : Prop} [Decidable c] {m m' : EStateM ε σ α} (h : c → Keeps I R m)
    (h' : ¬ c → Keeps I R m') : Keeps I R (if c then m else m') :=
  fun s hs => wp_ite.2 ⟨fun hc => h hc s hs, fun hc => h' hc s hs⟩

end Keeps

/-! ## Programs that return more often -/

/-- Where `m` returns, `m'` returns the same. -/
def Extends (m m' : EStateM ε σ α) (s : σ) : Prop :=
  ∀ a s', m s = .ok a s' → m' s = .ok a s'

section Extends

variable {m m' : EStateM ε σ α} {f g : α → EStateM ε σ β} {s : σ}

theorem Extends.refl (m : EStateM ε σ α) (s : σ) : Extends m m s := fun _ _ h => h

theorem Extends.throw (e : ε) (m : EStateM ε σ α) (s : σ) : Extends (throw e) m s := by
  intro a s' h
  cases h

theorem Extends.bind (h : Extends m m' s) (hf : ∀ a s', Extends (f a) (g a) s') :
    Extends (m >>= f) (m' >>= g) s := by
  intro b s2 hrun
  change EStateM.bind m f s = _ at hrun
  show EStateM.bind m' g s = _
  unfold EStateM.bind at hrun ⊢
  cases hm : m s with
  | ok a s1 =>
    rw [hm] at hrun
    rw [h a s1 hm]
    exact hf a s1 b s2 hrun
  | error e s1 =>
    rw [hm] at hrun
    cases hrun

theorem Extends.map (h : Extends m m' s) (f : α → β) : Extends (f <$> m) (f <$> m') s := by
  intro b s1 hrun
  change EStateM.map f m s = _ at hrun
  show EStateM.map f m' s = _
  unfold EStateM.map at hrun ⊢
  cases hm : m s with
  | ok a s2 =>
    rw [hm] at hrun
    rw [h a s2 hm]
    exact hrun
  | error e s2 =>
    rw [hm] at hrun
    cases hrun

theorem Extends.ite {c : Prop} [Decidable c] {n n' : EStateM ε σ α} (h : Extends m m' s)
    (hn : Extends n n' s) : Extends (if c then m else n) (if c then m' else n') s := by
  split_ifs
  · exact h
  · exact hn

end Extends

end Logfs
