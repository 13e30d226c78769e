import Mathlib.Tactic.Common

/-!
# Actions

Programs over a mutable state that can fail, and whose intermediate states matter: a crash stops a
program at any state it passes through. `Act.Wp` is the weakest precondition of an action for a
crash condition on the states passed through and a postcondition on the outcome.
-/

/-- What one run of an action leaves: the states it passed through, its result, its last state. -/
structure Outcome (σ ε α : Type) where
  trace : List σ
  result : Except ε α
  final : σ

def Act (σ ε α : Type) := σ → Outcome σ ε α

namespace Act
variable {σ ε α β : Type}

instance : Monad (Act σ ε) where
  pure a := fun s => ⟨[], .ok a, s⟩
  bind m f := fun s =>
    match (m s).result with
    | .error e => ⟨(m s).trace, .error e, (m s).final⟩
    | .ok a =>
      ⟨(m s).trace ++ (f a (m s).final).trace, (f a (m s).final).result, (f a (m s).final).final⟩

/-- The current state. -/
def read : Act σ ε σ := fun s => ⟨[], .ok s, s⟩

/-- A change no crash can separate from what comes next, such as one of volatile state. -/
def modify (f : σ → σ) : Act σ ε Unit := fun s => ⟨[], .ok (), f s⟩

/-- A change after which the program can be interrupted. -/
def step (f : σ → σ) : Act σ ε Unit := fun s => ⟨[f s], .ok (), f s⟩

def throw (e : ε) : Act σ ε α := fun s => ⟨[], .error e, s⟩

/-- Run an action and hand its failure to the caller as a value. -/
def attempt (m : Act σ ε α) : Act σ ε (Except ε α) := fun s =>
  ⟨(m s).trace, .ok (m s).result, (m s).final⟩

/-- Run an action on each element of a list in turn, stopping at the first failure. -/
def each (f : β → Act σ ε Unit) : List β → Act σ ε Unit
  | [] => pure ()
  | b :: bs => do f b; each f bs

theorem bind_assoc (m : Act σ ε α) (f : α → Act σ ε β) (g : β → Act σ ε γ) :
    m >>= f >>= g = m >>= fun a => f a >>= g := by
  funext s
  simp only [bind]
  cases (m s).result with
  | error e => rfl
  | ok a =>
    dsimp only
    cases (f a (m s).final).result with
    | error e => rfl
    | ok b => simp only [List.append_assoc]

theorem mem_trace_bind_left {m : Act σ ε α} {f : α → Act σ ε β} (h : t ∈ (m s).trace) :
    t ∈ ((m >>= f) s).trace := by
  simp only [bind]
  split
  · exact h
  · exact List.mem_append_left _ h

theorem mem_trace_bind_right {m : Act σ ε α} {f : α → Act σ ε β} (hm : m s = ⟨tr, .ok a, s'⟩)
    (h : t ∈ (f a s').trace) : t ∈ ((m >>= f) s).trace := by
  simp only [bind, hm]
  exact List.mem_append_right _ h

/-! ## Weakest preconditions -/

/-- From `s`, every state `m` passes through satisfies `I`, and its outcome satisfies `Q`. -/
def Wp (m : Act σ ε α) (I : σ → Prop) (Q : Except ε α → σ → Prop) (s : σ) : Prop :=
  (∀ t ∈ (m s).trace, I t) ∧ Q (m s).result (m s).final

/-- The same, whatever states `m` passes through. -/
abbrev Gives (m : Act σ ε α) (Q : Except ε α → σ → Prop) (s : σ) : Prop := m.Wp (fun _ => True) Q s

/-- The postcondition that holds of results by `Q` and of failures by `E`. -/
def Post (Q : α → σ → Prop) (E : ε → σ → Prop) : Except ε α → σ → Prop
  | .ok a => Q a
  | .error e => E e

section Rules
variable {m : Act σ ε α} {I J : σ → Prop} {Q R : Except ε α → σ → Prop} {s : σ}

@[simp] theorem post_ok {Q : α → σ → Prop} {E : ε → σ → Prop} : Post Q E (.ok a) s ↔ Q a s := .rfl

@[simp] theorem post_error {Q : α → σ → Prop} {E : ε → σ → Prop} :
    Post Q E (.error e) s ↔ E e s := .rfl

theorem Wp.const {Q : σ → Prop} :
    m.Wp I (Post (fun _ => Q) fun _ => Q) s ↔ m.Wp I (fun _ => Q) s := by
  unfold Wp
  cases (m s).result with
  | error e => exact .rfl
  | ok a => exact .rfl

theorem Wp.mono (h : m.Wp I Q s) (hI : ∀ t, I t → J t) (hQ : ∀ r t, Q r t → R r t) :
    m.Wp J R s := ⟨fun t ht => hI t (h.1 t ht), hQ _ _ h.2⟩

theorem Wp.post_mono (h : m.Wp I Q s) (hQ : ∀ r t, Q r t → R r t) : m.Wp I R s :=
  h.mono (fun _ => id) hQ

theorem Wp.and (h : m.Wp I Q s) (h' : m.Wp J R s) :
    m.Wp (fun t => I t ∧ J t) (fun r t => Q r t ∧ R r t) s :=
  ⟨fun t ht => ⟨h.1 t ht, h'.1 t ht⟩, h.2, h'.2⟩

theorem Wp.of_run (h : m.Wp I Q s) (he : m s = ⟨tr, r, t⟩) : (∀ t ∈ tr, I t) ∧ Q r t := by
  unfold Wp at h
  rwa [he] at h

theorem Wp.outcome (h : m.Wp I Q s) :
    m.Wp I (fun r t => Q r t ∧ r = (m s).result ∧ t = (m s).final) s := ⟨h.1, h.2, rfl, rfl⟩

@[simp] theorem wp_pure : (pure a : Act σ ε α).Wp I Q s ↔ Q (.ok a) s := by
  simp [Wp, pure]

@[simp] theorem wp_bind {f : α → Act σ ε β} {Q : Except ε β → σ → Prop} :
    (m >>= f).Wp I Q s ↔
      m.Wp I (Post (fun a t => (f a).Wp I Q t) fun e t => Q (.error e) t) s := by
  simp only [Wp, bind]
  cases h : (m s).result with
  | error e => simp
  | ok a => simp [or_imp, forall_and, and_assoc]

theorem Wp.then {f : α → Act σ ε β} {R : Except ε β → σ → Prop} (h : m.Wp I Q s)
    (hf : ∀ a t, Q (.ok a) t → (f a).Wp I R t) (he : ∀ e t, Q (.error e) t → R (.error e) t) :
    (m >>= f).Wp I R s := by
  refine wp_bind.mpr (h.post_mono fun r t ht => ?_)
  cases r with
  | error e => exact he e t ht
  | ok a => exact hf a t ht

/-- The rule of composition: what the first action establishes is what the second one needs. -/
theorem Wp.bind {f : α → Act σ ε β} {P : α → σ → Prop} {E : ε → σ → Prop}
    {Q : Except ε β → σ → Prop} (h : m.Wp I (Post P E) s) (hf : ∀ a t, P a t → (f a).Wp I Q t)
    (he : ∀ e t, E e t → Q (.error e) t) : (m >>= f).Wp I Q s := h.then hf he

theorem Wp.seq {f : α → Act σ ε β} {R : Except ε β → σ → Prop} (h : m.Wp I Q s)
    (hf : ∀ r t, Q r t → Post (fun a t => (f a).Wp I R t) (fun e t => R (.error e) t) r t) : (m >>= f).Wp I R s :=
  wp_bind.mpr (h.post_mono hf)

@[simp] theorem wp_read {Q : Except ε σ → σ → Prop} :
    (read : Act σ ε σ).Wp I Q s ↔ Q (.ok s) s := by simp [Wp, read]

@[simp] theorem wp_modify {f : σ → σ} {Q : Except ε Unit → σ → Prop} :
    (modify f : Act σ ε Unit).Wp I Q s ↔ Q (.ok ()) (f s) := by simp [Wp, modify]

@[simp] theorem wp_step {f : σ → σ} {Q : Except ε Unit → σ → Prop} :
    (step f : Act σ ε Unit).Wp I Q s ↔ I (f s) ∧ Q (.ok ()) (f s) := by simp [Wp, step]

@[simp] theorem wp_throw : (throw e : Act σ ε α).Wp I Q s ↔ Q (.error e) s := by simp [Wp, throw]

@[simp] theorem wp_attempt {Q : Except ε (Except ε α) → σ → Prop} :
    m.attempt.Wp I Q s ↔ m.Wp I (fun r t => Q (.ok r) t) s := by simp [Wp, attempt]

/-- The rule for an action whose failure is handled. -/
theorem Wp.tries {f : Except ε α → Act σ ε β} {R : Except ε β → σ → Prop} (h : m.Wp I Q s)
    (hf : ∀ r t, Q r t → (f r).Wp I R t) : (m.attempt >>= f).Wp I R s := wp_bind.mpr (wp_attempt.mpr (h.post_mono hf))

/-- The rule for one that cannot fail. -/
theorem Wp.surely {f : Except ε α → Act σ ε β} {P : α → σ → Prop} {R : Except ε β → σ → Prop}
    (h : m.Wp I (Post P fun _ _ => False) s) (hf : ∀ a t, P a t → (f (.ok a)).Wp I R t) :
    (m.attempt >>= f).Wp I R s := by
  refine h.tries fun r t ht => ?_
  cases r with
  | error e => exact ht.elim
  | ok a => exact hf a t ht

theorem Wp.pure (h : Q (.ok a) s) : (pure a : Act σ ε α).Wp I Q s := wp_pure.mpr h

theorem Wp.throw (h : Q (.error e) s) : (throw e : Act σ ε α).Wp I Q s := wp_throw.mpr h

theorem wp_ite {c : Prop} [Decidable c] {m' : Act σ ε α} (h : c → m.Wp I Q s)
    (h' : ¬c → m'.Wp I Q s) : (if c then m else m').Wp I Q s := by
  split
  · exact h ‹_›
  · exact h' ‹_›

theorem Wp.each {f : β → Act σ ε Unit} {bs : List β} {P : List β → σ → Prop}
    {E : ε → σ → Prop} (hs : P bs s)
    (hf : ∀ b bs t, P (b :: bs) t → (f b).Wp I (Post (fun _ u => P bs u) E) t) :
    (Act.each f bs).Wp I (Post (fun _ u => P [] u) E) s := by
  induction bs generalizing s with
  | nil => exact wp_pure.mpr hs
  | cons b bs ih =>
    refine wp_bind.mpr ((hf b bs s hs).post_mono ?_)
    rintro (e | a) t ht
    · exact ht
    · exact ih ht

end Rules

/-! ## Invariants -/

/-- From every state with `J` the action passes through states with `I` only and ends, failed or
not, in a state with `J`. -/
def Keeps (I J : σ → Prop) (m : Act σ ε α) : Prop := ∀ s, J s → m.Wp I (fun _ => J) s

section Keeps
variable {I J : σ → Prop} {m : Act σ ε α}

theorem keeps_pure (a : α) : (pure a : Act σ ε α).Keeps I J := fun _ hs => wp_pure.mpr hs

theorem keeps_throw (e : ε) : (throw e : Act σ ε α).Keeps I J := fun _ hs => wp_throw.mpr hs

theorem keeps_read : (read : Act σ ε σ).Keeps I J := fun _ hs => wp_read.mpr hs

theorem Keeps.bind {f : α → Act σ ε β} (hm : m.Keeps I J) (hf : ∀ a, (f a).Keeps I J) :
    (m >>= f).Keeps I J := fun s hs => (hm s hs).then hf fun _ _ ht => ht

theorem Keeps.wp_bind {f : α → Act σ ε β} {Q : Except ε β → σ → Prop} (hm : m.Keeps I J) (hs : J s)
    (hf : ∀ a t, J t → (f a).Wp I Q t) (he : ∀ e t, J t → Q (.error e) t) : (m >>= f).Wp I Q s :=
  (hm s hs).then hf he

theorem Keeps.and {J' : σ → Prop} (hm : m.Keeps I J) (hm' : m.Keeps I J') :
    m.Keeps I fun s => J s ∧ J' s := fun s hs =>
  ((hm s hs.1).and (hm' s hs.2)).mono (fun _ h => h.1) fun _ _ h => h

theorem Keeps.attempt (hm : m.Keeps I J) : m.attempt.Keeps I J := fun s hs =>
  wp_attempt.mpr (hm s hs)

theorem keeps_ite {c : Prop} [Decidable c] {m' : Act σ ε α} (h : m.Keeps I J)
    (h' : m'.Keeps I J) : (if c then m else m').Keeps I J := by
  split
  · exact h
  · exact h'

end Keeps
end Act
