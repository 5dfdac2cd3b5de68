import Mathlib.Logic.Relation

/-! Message handlers: state passing with an error, a panic and a fuel outcome, and the
rules that trace what a handler does back to the elementary steps it is made of. -/
namespace Lib

inductive Outcome (ε π α : Type)
  | ok (a : α)
  | err (e : ε)
  | panic (p : π)
  | exhausted
deriving DecidableEq

/-- `?` on an outcome. -/
def Outcome.bind {ε π α β : Type} (x : Outcome ε π α) (f : α → Outcome ε π β) : Outcome ε π β :=
  match x with
  | .ok a => f a
  | .err e => .err e
  | .panic p => .panic p
  | .exhausted => .exhausted

/-- A handler keeps the effects that precede an error or a panic. -/
def Handler (σ ε π α : Type) := σ → Outcome ε π α × σ

namespace Handler

variable {σ ε π α β : Type}

def ret (a : α) : Handler σ ε π α := fun s => (.ok a, s)

def andThen (x : Handler σ ε π α) (f : α → Handler σ ε π β) : Handler σ ε π β := fun s =>
  match x s with
  | (.ok a, s') => f a s'
  | (.err e, s') => (.err e, s')
  | (.panic p, s') => (.panic p, s')
  | (.exhausted, s') => (.exhausted, s')

instance : Monad (Handler σ ε π) where
  pure := ret
  bind := andThen

def self : Handler σ ε π σ := fun s => (.ok s, s)

def update (f : σ → σ) : Handler σ ε π Unit := fun s => (.ok (), f s)

def fail (e : ε) : Handler σ ε π α := fun s => (.err e, s)

def crash (p : π) : Handler σ ε π α := fun s => (.panic p, s)

def exhaust : Handler σ ε π α := fun s => (.exhausted, s)

/-- `?` on the result of a pure check. -/
def ofExcept : Except ε α → Handler σ ε π α
  | .ok a => ret a
  | .error e => fail e

/-- `let _ = x`: an error is dropped, its effects stay. -/
def ignoreErr (x : Handler σ ε π Unit) : Handler σ ε π Unit := fun s =>
  match x s with
  | (.err _, s') => (.ok (), s')
  | r => r

/-- A conditional whose else branch does nothing. -/
def when (c : Prop) [Decidable c] (x : Handler σ ε π Unit) : Handler σ ε π Unit :=
  if c then x else ret ()

/-- `x.expect(..)`: an error becomes a panic. -/
def expect (p : π) (x : Handler σ ε π α) : Handler σ ε π α := fun s =>
  match x s with
  | (.err _, s') => (.panic p, s')
  | r => r

theorem bind_eq (x : Handler σ ε π α) (f : α → Handler σ ε π β) : x >>= f = andThen x f := rfl

theorem bind_run {x : Handler σ ε π α} {f : α → Handler σ ε π β} {a : α} {s t : σ}
    (h : x s = (.ok a, t)) : (x >>= f) s = f a t := by
  rw [bind_eq, andThen, h]

theorem bind_ok {x : Handler σ ε π α} {f : α → Handler σ ε π β} {b : β} {s t : σ}
    (h : (x >>= f) s = (.ok b, t)) : ∃ a u, x s = (.ok a, u) ∧ f a u = (.ok b, t) := by
  rw [bind_eq] at h
  unfold andThen at h
  cases hx : x s with
  | mk o u =>
    rw [hx] at h
    cases o with
    | ok a => exact ⟨a, u, rfl, h⟩
    | err e => cases h
    | panic p => cases h
    | exhausted => cases h

theorem bind_panic {x : Handler σ ε π α} {f : α → Handler σ ε π β} {p : π} {s t : σ}
    (h : (x >>= f) s = (.panic p, t)) :
    x s = (.panic p, t) ∨ ∃ a u, x s = (.ok a, u) ∧ f a u = (.panic p, t) := by
  rw [bind_eq] at h
  unfold andThen at h
  cases hx : x s with
  | mk o u =>
    rw [hx] at h
    cases o with
    | ok a => exact .inr ⟨a, u, rfl, h⟩
    | panic q =>
      cases h
      exact .inl rfl
    | err e => cases h
    | exhausted => cases h

theorem bind_err {x : Handler σ ε π α} {f : α → Handler σ ε π β} {e : ε} {s t : σ}
    (h : (x >>= f) s = (.err e, t)) :
    x s = (.err e, t) ∨ ∃ a u, x s = (.ok a, u) ∧ f a u = (.err e, t) := by
  rw [bind_eq] at h
  unfold andThen at h
  cases hx : x s with
  | mk o u =>
    rw [hx] at h
    cases o with
    | ok a => exact .inr ⟨a, u, rfl, h⟩
    | err e' =>
      cases h
      exact .inl rfl
    | panic p => cases h
    | exhausted => cases h

/-! ### Handlers that only look at the state -/

def Reads (x : Handler σ ε π α) : Prop := ∀ s, (x s).2 = s

theorem Reads.eq {x : Handler σ ε π α} {o : Outcome ε π α} {s t : σ} (hx : Reads x)
    (h : x s = (o, t)) : t = s := by
  have hs := hx s
  rw [h] at hs
  exact hs

theorem reads_pure (a : α) : Reads (pure a : Handler σ ε π α) := fun _ => rfl

theorem reads_self : Reads (self : Handler σ ε π σ) := fun _ => rfl

theorem reads_fail (e : ε) : Reads (fail e : Handler σ ε π α) := fun _ => rfl

theorem reads_crash (p : π) : Reads (crash p : Handler σ ε π α) := fun _ => rfl

theorem reads_bind {x : Handler σ ε π α} {f : α → Handler σ ε π β} (hx : Reads x)
    (hf : ∀ a, Reads (f a)) : Reads (x >>= f) := by
  intro s
  rw [bind_eq]
  unfold andThen
  cases h : x s with
  | mk o t =>
    cases hx.eq h
    cases o with
    | ok a => exact hf a s
    | _ => rfl

theorem reads_ite {c : Prop} [Decidable c] {x y : Handler σ ε π α} (hx : Reads x) (hy : Reads y) :
    Reads (if c then x else y) := by
  split
  · exact hx
  · exact hy

theorem reads_when {c : Prop} [Decidable c] {x : Handler σ ε π Unit} (hx : Reads x) :
    Reads (when c x) :=
  reads_ite hx (reads_pure ())

theorem reads_ofExcept (x : Except ε α) : Reads (ofExcept x : Handler σ ε π α) := by
  cases x <;> exact fun _ => rfl

/-- `x` looks at the state and does not panic. -/
structure Looks (x : Handler σ ε π α) : Prop where
  reads : Reads x
  calm : ∀ s p, (x s).1 ≠ .panic p

theorem looks_pure (a : α) : Looks (pure a : Handler σ ε π α) := ⟨reads_pure a, fun _ _ => nofun⟩

theorem looks_ite_fail {c : Prop} [Decidable c] (e : ε) :
    Looks (if c then pure () else fail e : Handler σ ε π Unit) := by
  split
  · exact looks_pure ()
  · exact ⟨reads_fail e, fun _ _ => nofun⟩

theorem looks_ofExcept (x : Except ε α) : Looks (ofExcept x : Handler σ ε π α) := by
  cases x <;> exact ⟨fun _ => rfl, fun _ _ => nofun⟩

theorem looks_when {c : Prop} [Decidable c] {x : Handler σ ε π Unit} (hx : Looks x) :
    Looks (when c x) := by
  unfold when
  split
  · exact hx
  · exact looks_pure ()

theorem ofExcept_ok {x : Except ε α} {a : α} {s t : σ}
    (h : (ofExcept x : Handler σ ε π α) s = (.ok a, t)) : x = .ok a := by
  cases x with
  | ok b => cases h; rfl
  | error e => cases h

theorem when_ofExcept_ok {c : Prop} [Decidable c] {x : Except ε Unit} {u : Unit} {s t : σ}
    (h : (when c (ofExcept x) : Handler σ ε π Unit) s = (.ok u, t)) (hc : c) : x = .ok () := by
  rw [when, if_pos hc] at h
  exact ofExcept_ok h

/-- `x` gives up on `s` and leaves it as it is. -/
def Rejects (s : σ) (x : Handler σ ε π α) : Prop := (x s).2 = s ∧ ∀ a, (x s).1 ≠ .ok a

theorem rejects_reads_bind {x : Handler σ ε π α} {f : α → Handler σ ε π β} {s : σ}
    (hx : Reads x) (hf : ∀ a, x s = (.ok a, s) → Rejects s (f a)) : Rejects s (x >>= f) := by
  unfold Rejects
  rw [bind_eq]
  unfold andThen
  cases h : x s with
  | mk o t =>
    cases hx.eq h
    cases o with
    | ok a => exact hf a h
    | _ => exact ⟨rfl, by simp⟩

/-- `x` ends on `s` with a result or an error and leaves it as it is. -/
def Settles (s : σ) (x : Handler σ ε π α) : Prop :=
  (∃ a, x s = (.ok a, s)) ∨ ∃ e, x s = (.err e, s)

theorem settles_pure (a : α) (s : σ) : Settles s (pure a : Handler σ ε π α) := .inl ⟨a, rfl⟩

theorem settles_self (s : σ) : Settles s (self : Handler σ ε π σ) := .inl ⟨s, rfl⟩

theorem settles_fail (e : ε) (s : σ) : Settles s (fail e : Handler σ ε π α) := .inr ⟨e, rfl⟩

theorem settles_ite {c : Prop} [Decidable c] {x y : Handler σ ε π α} {s : σ} (hx : Settles s x)
    (hy : Settles s y) : Settles s (if c then x else y) := by
  split
  · exact hx
  · exact hy

theorem settles_ofExcept (x : Except ε α) (s : σ) :
    Settles s (ofExcept x : Handler σ ε π α) := by
  cases x with
  | ok a => exact settles_pure a s
  | error e => exact settles_fail e s

theorem settles_when {c : Prop} [Decidable c] {x : Handler σ ε π Unit} {s : σ}
    (hx : Settles s x) : Settles s (when c x) :=
  settles_ite hx (settles_pure () s)

theorem settles_bind {x : Handler σ ε π α} {f : α → Handler σ ε π β} {s : σ} (hx : Settles s x)
    (hf : ∀ a, x s = (.ok a, s) → Settles s (f a)) : Settles s (x >>= f) := by
  rw [Settles, bind_eq, andThen]
  rcases hx with ⟨a, h⟩ | ⟨e, h⟩
  · rw [h]
    exact hf a h
  · rw [h]
    exact .inr ⟨e, rfl⟩

/-! ### Handlers that end without a panic -/

/-- `x` ends on `s` with a result or an error. -/
def Answers (s : σ) (x : Handler σ ε π α) : Prop :=
  (∃ a t, x s = (.ok a, t)) ∨ ∃ e t, x s = (.err e, t)

/-- Where the handler ends with a bad error, `Q` holds. -/
def Raises (bad : ε → Prop) (Q : σ → Prop) (x : Handler σ ε π α) : Prop :=
  ∀ s e, (x s).1 = .err e → bad e → Q (x s).2

variable {bad : ε → Prop} {Q : σ → Prop}

theorem raises_of_ok {x : Handler σ ε π α} (h : ∀ s e, (x s).1 ≠ .err e) : Raises bad Q x :=
  fun s e he => absurd he (h s e)

/-- A handler that raises nothing ends in no error. -/
theorem Raises.ne_err {x : Handler σ ε π α}
    (h : Raises (fun _ => True) (fun _ => False) x) {s t : σ} {e : ε} : x s ≠ (.err e, t) :=
  fun hx => h s e (congrArg Prod.fst hx) trivial

theorem raises_pure (a : α) : Raises bad Q (pure a : Handler σ ε π α) :=
  raises_of_ok fun _ _ h => nomatch h

theorem raises_self : Raises bad Q (self : Handler σ ε π σ) := raises_of_ok fun _ _ h => nomatch h

theorem raises_mono {Q' : σ → Prop} {x : Handler σ ε π α} (h : Raises bad Q x)
    (hq : ∀ s, Q s → Q' s) : Raises bad Q' x :=
  fun s e he hb => hq _ (h s e he hb)

theorem raises_self_bind {f : σ → Handler σ ε π β}
    (hf : ∀ s e, (f s s).1 = .err e → bad e → Q (f s s).2) :
    Raises bad Q ((self : Handler σ ε π σ) >>= f) := hf

theorem raises_update (f : σ → σ) : Raises bad Q (update f : Handler σ ε π Unit) :=
  raises_of_ok fun _ _ h => nomatch h

theorem raises_crash (p : π) : Raises bad Q (crash p : Handler σ ε π α) :=
  raises_of_ok fun _ _ h => nomatch h

theorem raises_exhaust : Raises bad Q (exhaust : Handler σ ε π α) :=
  raises_of_ok fun _ _ h => nomatch h

theorem raises_fail {e : ε} (h : ¬ bad e) : Raises bad Q (fail e : Handler σ ε π α) := by
  intro s e' he hb
  cases he
  exact absurd hb h

/-- What follows may rely on what the first part leaves behind. -/
theorem raises_bind_ok {x : Handler σ ε π α} {f : α → Handler σ ε π β} {P : σ → Prop}
    (hx : Raises bad Q x) (hp : ∀ s a t, x s = (.ok a, t) → P t)
    (hf : ∀ a t e, P t → (f a t).1 = .err e → bad e → Q (f a t).2) : Raises bad Q (x >>= f) := by
  intro s e he hb
  rw [bind_eq] at he ⊢
  unfold andThen at he ⊢
  cases h : x s with
  | mk o t =>
    rw [h] at he
    cases o with
    | ok a => exact hf a t e (hp s a t h) he hb
    | err e' =>
      have hq := hx s e' (by rw [h])
      rw [h] at hq
      cases he
      exact hq hb
    | panic p => cases he
    | exhausted => cases he

theorem raises_bind {x : Handler σ ε π α} {f : α → Handler σ ε π β} (hx : Raises bad Q x)
    (hf : ∀ a, Raises bad Q (f a)) : Raises bad Q (x >>= f) :=
  raises_bind_ok (P := fun _ => True) hx (fun _ _ _ _ => trivial) fun a t e _ => hf a t e

theorem raises_ite {c : Prop} [Decidable c] {x y : Handler σ ε π α} (hx : Raises bad Q x)
    (hy : Raises bad Q y) : Raises bad Q (if c then x else y) := by
  split
  · exact hx
  · exact hy

theorem raises_when {c : Prop} [Decidable c] {x : Handler σ ε π Unit} (hx : Raises bad Q x) :
    Raises bad Q (when c x) :=
  raises_ite hx (raises_pure ())

theorem raises_ignoreErr (x : Handler σ ε π Unit) : Raises bad Q (ignoreErr x) := by
  intro s e he
  unfold ignoreErr at he
  cases h : x s with
  | mk o t =>
    rw [h] at he
    cases o <;> cases he

theorem raises_expect (p : π) (x : Handler σ ε π α) : Raises bad Q (expect p x) := by
  intro s e he
  unfold expect at he
  cases h : x s with
  | mk o t =>
    rw [h] at he
    cases o <;> cases he

theorem raises_ofExcept {x : Except ε α} (h : ∀ e, x = .error e → ¬ bad e) :
    Raises bad Q (ofExcept x : Handler σ ε π α) := by
  cases x with
  | ok a => exact raises_pure a
  | error e => exact raises_fail (h e rfl)

/-! ### Elementary steps -/

variable {R : σ → σ → Prop} {D : σ → π → Prop} {s : σ}

/-- What `x` does from `s` on is a sequence of `R`-steps, however it ends, provided that it
does end, and where it panics there is a reason in `D`. -/
def Steps (R : σ → σ → Prop) (D : σ → π → Prop) (s : σ) (x : Handler σ ε π α) : Prop :=
  (x s).1 ≠ .exhausted →
    Relation.ReflTransGen R s (x s).2 ∧ ∀ p, (x s).1 = .panic p → D (x s).2 p

theorem steps_of_ok {x : Handler σ ε π α} {a : α} {t : σ} (h : x s = (.ok a, t))
    (hr : Relation.ReflTransGen R s t) : Steps R D s x := by
  intro _
  rw [h]
  exact ⟨hr, fun p hp => nomatch hp⟩

theorem steps_of_err {x : Handler σ ε π α} {e : ε} {t : σ} (h : x s = (.err e, t))
    (hr : Relation.ReflTransGen R s t) : Steps R D s x := by
  intro _
  rw [h]
  exact ⟨hr, fun p hp => nomatch hp⟩

theorem steps_of_panic {x : Handler σ ε π α} {p : π} {t : σ} (h : x s = (.panic p, t))
    (hr : Relation.ReflTransGen R s t) (hd : D t p) : Steps R D s x := by
  intro _
  rw [h]
  refine ⟨hr, fun q hq => ?_⟩
  cases hq
  exact hd

/-- A step that does not panic. -/
theorem steps_of_step {x : Handler σ ε π α} (h : R s (x s).2) (hn : ∀ p, (x s).1 ≠ .panic p) :
    Steps R D s x :=
  fun _ => ⟨.single h, fun p hp => absurd hp (hn p)⟩

/-- From `s` on, `x` goes to `s'` and goes on as `y`. -/
theorem steps_of_run {x : Handler σ ε π α} {y : Handler σ ε π α} {t : σ} (h : x s = y t)
    (hr : Relation.ReflTransGen R s t) (hy : Steps R D t y) : Steps R D s x := by
  intro hne
  rw [h] at hne ⊢
  obtain ⟨hrest, hp⟩ := hy hne
  exact ⟨hr.trans hrest, hp⟩

theorem steps_ret (a : α) : Steps R D s (ret a : Handler σ ε π α) := steps_of_ok rfl .refl

theorem steps_pure (a : α) : Steps R D s (pure a : Handler σ ε π α) := steps_of_ok rfl .refl

theorem steps_fail (e : ε) : Steps R D s (fail e : Handler σ ε π α) := steps_of_err rfl .refl

theorem steps_crash {p : π} (h : D s p) : Steps R D s (crash p : Handler σ ε π α) :=
  steps_of_panic rfl .refl h

theorem steps_exhaust : Steps R D s (exhaust : Handler σ ε π α) := fun h => absurd rfl h

theorem steps_update {f : σ → σ} (h : R s (f s)) :
    Steps R D s (update f : Handler σ ε π Unit) := steps_of_ok rfl (.single h)

theorem steps_bind {x : Handler σ ε π α} {f : α → Handler σ ε π β} (hx : Steps R D s x)
    (hf : ∀ a s', x s = (.ok a, s') → Relation.ReflTransGen R s s' → Steps R D s' (f a)) :
    Steps R D s (x >>= f) := by
  rw [bind_eq]
  unfold Steps andThen at *
  cases hxs : x s with
  | mk o s' =>
    rw [hxs] at hx
    cases o with
    | ok a =>
      intro hne
      obtain ⟨hreach, -⟩ := hx (by simp)
      obtain ⟨hrest, hp⟩ := hf a s' hxs hreach hne
      exact ⟨hreach.trans hrest, hp⟩
    | err e => exact fun _ => ⟨(hx (by simp)).1, fun p hp => nomatch hp⟩
    | panic p =>
      intro _
      obtain ⟨hreach, hp⟩ := hx (by simp)
      refine ⟨hreach, fun q hq => ?_⟩
      cases hq
      exact hp p rfl
    | exhausted => exact fun hne => absurd rfl hne

/-- A first part whose effect is known: an update, or a look at the state. -/
theorem steps_seq {x : Handler σ ε π α} {f : α → Handler σ ε π β} {a : α} {s' : σ}
    (hx : x s = (.ok a, s')) (hr : Relation.ReflTransGen R s s') (hf : Steps R D s' (f a)) :
    Steps R D s (x >>= f) :=
  steps_of_run (bind_run hx) hr hf

theorem steps_self_bind {f : σ → Handler σ ε π β} (hf : Steps R D s (f s)) :
    Steps R D s ((self : Handler σ ε π σ) >>= f) := hf

/-- What follows a look at the state knows what the look has returned. -/
theorem steps_reads_bind {x : Handler σ ε π α} {f : α → Handler σ ε π β} (hx : Reads x)
    (hp : ∀ p, x s = (.panic p, s) → D s p) (hf : ∀ a, x s = (.ok a, s) → Steps R D s (f a)) :
    Steps R D s (x >>= f) := by
  refine steps_bind ?_ ?_
  · intro _
    rw [hx s]
    exact ⟨.refl, fun p h => hp p (Prod.ext h (hx s))⟩
  · intro a t ha _
    cases hx.eq ha
    exact hf a ha

/-- The same for a look that cannot panic. -/
theorem steps_looks_bind {x : Handler σ ε π α} {f : α → Handler σ ε π β} (hx : Looks x)
    (hf : ∀ a, x s = (.ok a, s) → Steps R D s (f a)) : Steps R D s (x >>= f) :=
  steps_reads_bind hx.reads (fun p hp => absurd (congrArg Prod.fst hp) (hx.calm s p)) hf

theorem steps_update_bind {g : σ → σ} {f : Unit → Handler σ ε π β} (h : R s (g s))
    (hf : Steps R D (g s) (f ())) : Steps R D s ((update g : Handler σ ε π Unit) >>= f) :=
  steps_seq rfl (.single h) hf

theorem steps_ite {c : Prop} [Decidable c] {x y : Handler σ ε π α}
    (hx : c → Steps R D s x) (hy : ¬ c → Steps R D s y) : Steps R D s (if c then x else y) := by
  split
  · exact hx ‹_›
  · exact hy ‹_›

theorem steps_when {c : Prop} [Decidable c] {x : Handler σ ε π Unit} (hx : c → Steps R D s x) :
    Steps R D s (when c x) :=
  steps_ite hx fun _ => steps_ret ()

theorem steps_when_update_bind {c : Prop} [Decidable c] {g : σ → σ} {f : Unit → Handler σ ε π β}
    (hp : c → R s (g s) ∧ Steps R D (g s) (f ())) (hn : ¬ c → Steps R D s (f ())) :
    Steps R D s (when c (update g) >>= f) := by
  by_cases h : c
  · rw [when, if_pos h]
    exact steps_update_bind (hp h).1 (hp h).2
  · rw [when, if_neg h]
    exact hn h

theorem steps_ignoreErr {x : Handler σ ε π Unit} (h : Steps R D s x) :
    Steps R D s (ignoreErr x) := by
  unfold Steps ignoreErr at *
  cases hxs : x s with
  | mk o s' =>
    rw [hxs] at h
    cases o with
    | err e => exact fun _ => ⟨(h (by simp)).1, fun p hp => nomatch hp⟩
    | _ => exact h

theorem steps_expect {p : π} {x : Handler σ ε π α} (h : Steps R D s x) (hp : ∀ t, D t p) :
    Steps R D s (expect p x) := by
  unfold Steps expect at *
  cases hxs : x s with
  | mk o s' =>
    rw [hxs] at h
    cases o with
    | err e =>
      refine fun _ => ⟨(h (by simp)).1, fun q hq => ?_⟩
      cases hq
      exact hp s'
    | _ => exact h

/-! ### Elementary steps of a handler that need not be known to end well -/

/-- From `s` on, `x` makes `R`-steps, however it ends. -/
def Moves (R : σ → σ → Prop) (s : σ) (x : Handler σ ε π α) : Prop :=
  Relation.ReflTransGen R s (x s).2

theorem moves_pure (a : α) : Moves R s (pure a : Handler σ ε π α) := .refl

theorem moves_fail (e : ε) : Moves R s (fail e : Handler σ ε π α) := .refl

theorem moves_update {f : σ → σ} (h : R s (f s)) : Moves R s (update f : Handler σ ε π Unit) :=
  .single h

theorem moves_bind {x : Handler σ ε π α} {f : α → Handler σ ε π β} (hx : Moves R s x)
    (hf : ∀ a t, x s = (.ok a, t) → Moves R t (f a)) : Moves R s (x >>= f) := by
  rw [bind_eq]
  unfold Moves andThen at *
  cases h : x s with
  | mk o t =>
    rw [h] at hx
    cases o with
    | ok a => exact hx.trans (hf a t h)
    | _ => exact hx

theorem moves_self_bind {f : σ → Handler σ ε π β} (hf : Moves R s (f s)) :
    Moves R s ((self : Handler σ ε π σ) >>= f) := hf

theorem moves_update_bind {g : σ → σ} {f : Unit → Handler σ ε π β} (h : R s (g s))
    (hf : Moves R (g s) (f ())) : Moves R s ((update g : Handler σ ε π Unit) >>= f) :=
  .head h hf

theorem moves_reads_bind {x : Handler σ ε π α} {f : α → Handler σ ε π β} (hx : Reads x)
    (hf : ∀ a, x s = (.ok a, s) → Moves R s (f a)) : Moves R s (x >>= f) := by
  refine moves_bind ?_ ?_
  · unfold Moves
    rw [hx s]
  · intro a t ha
    cases hx.eq ha
    exact hf a ha

theorem moves_ite {c : Prop} [Decidable c] {x y : Handler σ ε π α} (hx : c → Moves R s x)
    (hy : ¬ c → Moves R s y) : Moves R s (if c then x else y) := by
  split
  · exact hx ‹_›
  · exact hy ‹_›

theorem moves_expect {p : π} {x : Handler σ ε π α} (h : Moves R s x) : Moves R s (expect p x) := by
  unfold Moves expect at *
  cases hx : x s with
  | mk o t =>
    rw [hx] at h
    cases o <;> exact h

theorem moves_ignoreErr {x : Handler σ ε π Unit} (h : Moves R s x) : Moves R s (ignoreErr x) := by
  unfold Moves ignoreErr at *
  cases hx : x s with
  | mk o t =>
    rw [hx] at h
    cases o <;> exact h

end Handler

end Lib
