import Ipotane.Lib.Handler
import Mathlib.Order.Filter.AtTopBot.Basic

/-! Handlers that are given fuel: with enough of it they end, always in the same way, or they run
into a loop that can be told from the state they are stuck in. -/
namespace Lib.Handler

open Filter

variable {σ ε π α β : Type} {R : σ → σ → Prop} {L : σ → Prop} {s : σ}

/-! ### Parts without a call -/

/-- From `s` on, `x` ends by itself, and where it ends is related to `s`. -/
def Plain (R : σ → σ → Prop) (s : σ) (x : Handler σ ε π α) : Prop :=
  (x s).1 ≠ .exhausted ∧ R s (x s).2

theorem Plain.mono {R' : σ → σ → Prop} {x : Handler σ ε π α} (h : Plain R s x)
    (hr : ∀ t, R s t → R' s t) : Plain R' s x :=
  ⟨h.1, hr _ h.2⟩

theorem plain_of_run {x : Handler σ ε π α} {o : Outcome ε π α} {t : σ} (h : x s = (o, t))
    (ho : o ≠ .exhausted) (hr : R s t) : Plain R s x := by
  unfold Plain
  rw [h]
  exact ⟨ho, hr⟩

theorem plain_update {f : σ → σ} (h : R s (f s)) : Plain R s (update f : Handler σ ε π Unit) :=
  plain_of_run rfl (by simp) h

theorem plain_ite {c : Prop} [Decidable c] {x y : Handler σ ε π α} (hx : Plain R s x)
    (hy : Plain R s y) : Plain R s (if c then x else y) := by
  split
  · exact hx
  · exact hy

section Refl

variable [Std.Refl R]

theorem plain_pure (a : α) : Plain R s (pure a : Handler σ ε π α) :=
  plain_of_run rfl (by simp) (refl s)

theorem plain_self : Plain R s (self : Handler σ ε π σ) := plain_of_run rfl (by simp) (refl s)

theorem plain_fail (e : ε) : Plain R s (fail e : Handler σ ε π α) :=
  plain_of_run rfl (by simp) (refl s)

theorem plain_crash (p : π) : Plain R s (crash p : Handler σ ε π α) :=
  plain_of_run rfl (by simp) (refl s)

theorem plain_ofExcept (x : Except ε α) : Plain R s (ofExcept x : Handler σ ε π α) := by
  cases x with
  | ok a => exact plain_pure a
  | error e => exact plain_fail e

theorem plain_when {c : Prop} [Decidable c] {x : Handler σ ε π Unit} (hx : Plain R s x) :
    Plain R s (when c x) :=
  plain_ite hx (plain_pure ())

end Refl

theorem plain_bind [IsTrans σ R] {x : Handler σ ε π α} {f : α → Handler σ ε π β} (hx : Plain R s x)
    (hf : ∀ a t, x s = (.ok a, t) → Plain R t (f a)) : Plain R s (x >>= f) := by
  obtain ⟨hne, hr⟩ := hx
  unfold Plain
  rw [bind_eq]
  unfold andThen
  cases hx : x s with
  | mk o t =>
    rw [hx] at hne hr
    cases o with
    | ok a =>
      obtain ⟨hne', hr'⟩ := hf a t hx
      exact ⟨hne', IsTrans.trans _ _ _ hr hr'⟩
    | err e => exact ⟨by simp, hr⟩
    | panic p => exact ⟨by simp, hr⟩
    | exhausted => exact absurd rfl hne

/-! ### Enough fuel -/

/-- With enough fuel `x` ends, in a way that more fuel does not change and in a state related to
`s`; or else, however much fuel there is, it runs out in a state of `L`. -/
inductive Halts (R : σ → σ → Prop) (L : σ → Prop) (s : σ) (x : ℕ → Handler σ ε π α) : Prop
  | stops {o : Outcome ε π α} {t : σ} (ho : o ≠ .exhausted) (hr : R s t)
      (hx : ∀ᶠ n in atTop, x n s = (o, t))
  | loops (hx : ∀ᶠ n in atTop, (x n s).1 = .exhausted ∧ L (x n s).2)

theorem Halts.mono {R' : σ → σ → Prop} {x : ℕ → Handler σ ε π α} (h : Halts R L s x)
    (hr : ∀ t, R s t → R' s t) : Halts R' L s x := by
  cases h with
  | stops ho hr' hx => exact .stops ho (hr _ hr') hx
  | loops hx => exact .loops hx

theorem halts_plain {x : Handler σ ε π α} (h : Plain R s x) : Halts R L s fun _ => x :=
  .stops h.1 h.2 (.of_forall fun _ => rfl)

/-- One more call costs one unit. -/
theorem halts_succ {x : ℕ → Handler σ ε π α} (h : Halts R L s fun n => x (n + 1)) :
    Halts R L s x := by
  have hshift : ∀ {p : ℕ → Prop}, (∀ᶠ n in atTop, p (n + 1)) → ∀ᶠ n in atTop, p n := by
    intro p hp
    obtain ⟨k, hk⟩ := eventually_atTop.mp hp
    refine eventually_atTop.mpr ⟨k + 1, fun n hn => ?_⟩
    have hpred := hk (n - 1) (by omega)
    rwa [Nat.sub_add_cancel (by omega)] at hpred
  cases h with
  | stops ho hr hx => exact .stops ho hr (hshift hx)
  | loops hx => exact .loops (hshift hx)

/-- From `s` on, `x` goes to `t` and goes on as `y`. -/
theorem halts_of_run [IsTrans σ R] {x y : ℕ → Handler σ ε π α} {t : σ}
    (h : ∀ n, x n s = y n t) (hr : R s t) (hy : Halts R L t y) : Halts R L s x := by
  cases hy with
  | stops ho hr' hy =>
    exact .stops ho (IsTrans.trans _ _ _ hr hr') (hy.mono fun n hn => (h n).trans hn)
  | loops hy =>
    refine .loops (hy.mono fun n hn => ?_)
    rwa [h n]

theorem halts_bind [IsTrans σ R] {x : ℕ → Handler σ ε π α} {f : ℕ → α → Handler σ ε π β}
    (hx : Halts R L s x) (hf : ∀ a t, R s t → Halts R L t fun n => f n a) :
    Halts R L s fun n => x n >>= f n := by
  cases hx with
  | loops hx =>
    refine .loops (hx.mono fun n hn => ?_)
    obtain ⟨ho, hl⟩ := hn
    change (andThen (x n) (f n) s).1 = _ ∧ L (andThen (x n) (f n) s).2
    unfold andThen
    cases hrun : x n s with
    | mk o t =>
      rw [hrun] at ho hl
      cases ho
      exact ⟨rfl, hl⟩
  | @stops o t ho hr hx =>
    have hstop : ∀ n, x n s = (o, t) → (x n >>= f n) s = andThen (fun _ => (o, t)) (f n) s := by
      intro n hn
      rw [bind_eq]
      unfold andThen
      rw [hn]
    cases o with
    | ok a =>
      cases hf a t hr with
      | stops ho' hr' hx' =>
        refine .stops ho' (IsTrans.trans _ _ _ hr hr') ?_
        filter_upwards [hx, hx'] with n hn hn'
        rw [bind_run hn, hn']
      | loops hx' =>
        refine .loops ?_
        filter_upwards [hx, hx'] with n hn hn'
        rwa [bind_run hn]
    | err e => exact .stops (o := .err e) (by simp) hr (hx.mono hstop)
    | panic p => exact .stops (o := .panic p) (by simp) hr (hx.mono hstop)
    | exhausted => exact absurd rfl ho

/-- A first part without a call. -/
theorem halts_plain_bind [IsTrans σ R] {x : Handler σ ε π α} {f : ℕ → α → Handler σ ε π β}
    (hx : Plain R s x) (hf : ∀ a t, x s = (.ok a, t) → R s t → Halts R L t fun n => f n a) :
    Halts R L s fun n => x >>= f n := by
  obtain ⟨hne, hr⟩ := hx
  cases hrun : x s with
  | mk o t =>
    rw [hrun] at hne hr
    cases o with
    | ok a =>
      exact halts_of_run (fun n => bind_run hrun) hr (hf a t hrun hr)
    | err e =>
      exact .stops (o := .err e) (by simp) hr (.of_forall fun n => by rw [bind_eq, andThen, hrun])
    | panic p =>
      exact .stops (o := .panic p) (by simp) hr (.of_forall fun n => by rw [bind_eq, andThen, hrun])
    | exhausted => exact absurd rfl hne

/-- A look at the state. -/
theorem halts_look_bind [Std.Refl R] [IsTrans σ R] {x : Handler σ ε π α}
    {f : ℕ → α → Handler σ ε π β}
    (hx : Plain Eq s x) (hf : ∀ a, x s = (.ok a, s) → Halts R L s fun n => f n a) :
    Halts R L s fun n => x >>= f n := by
  refine halts_plain_bind (hx.mono fun t ht => ht ▸ refl s) fun a t hrun _ => ?_
  have hsame := hx.2
  rw [hrun] at hsame
  cases hsame
  exact hf a hrun

theorem halts_self_bind [Std.Refl R] [IsTrans σ R] {f : ℕ → σ → Handler σ ε π β}
    (hf : Halts R L s fun n => f n s) :
    Halts R L s fun n => (self : Handler σ ε π σ) >>= f n := by
  refine halts_look_bind plain_self fun a h => ?_
  cases h
  exact hf

theorem halts_update_bind [IsTrans σ R] {g : σ → σ} {f : ℕ → Unit → Handler σ ε π β}
    (hg : R s (g s)) (hf : R s (g s) → Halts R L (g s) fun n => f n ()) :
    Halts R L s fun n => (update g : Handler σ ε π Unit) >>= f n := by
  refine halts_plain_bind (plain_update hg) fun _ t hrun hr => ?_
  cases hrun
  exact hf hr

theorem halts_ite {c : Prop} [Decidable c] {x y : ℕ → Handler σ ε π α} (hx : c → Halts R L s x)
    (hy : ¬ c → Halts R L s y) : Halts R L s fun n => if c then x n else y n := by
  by_cases h : c
  · simpa only [if_pos h] using hx h
  · simpa only [if_neg h] using hy h

theorem halts_when [Std.Refl R] {c : Prop} [Decidable c] {x : ℕ → Handler σ ε π Unit}
    (hx : c → Halts R L s x) : Halts R L s fun n => when c (x n) :=
  halts_ite hx fun _ => halts_plain (plain_pure ())

/-- What is done to the outcome alone, and not to the lack of one. -/
theorem halts_map {x : ℕ → Handler σ ε π α} {y : ℕ → Handler σ ε π β} (hx : Halts R L s x)
    (hstop : ∀ o, o ≠ .exhausted → ∃ o', o' ≠ .exhausted ∧ ∀ n t, x n s = (o, t) → y n s = (o', t))
    (hloop : ∀ n t, x n s = (.exhausted, t) → y n s = (.exhausted, t)) : Halts R L s y := by
  cases hx with
  | @stops o t ho hr hx =>
    obtain ⟨o', ho', hy⟩ := hstop o ho
    exact .stops ho' hr (hx.mono fun n => hy n t)
  | loops hx =>
    refine .loops (hx.mono fun n hn => ?_)
    obtain ⟨ho, hl⟩ := hn
    cases hrun : x n s with
    | mk o t =>
      rw [hrun] at ho hl
      cases ho
      rw [hloop n t hrun]
      exact ⟨rfl, hl⟩

theorem halts_expect {p : π} {x : ℕ → Handler σ ε π α} (hx : Halts R L s x) :
    Halts R L s fun n => expect p (x n) := by
  unfold expect
  refine halts_map hx (fun o ho => ?_) fun n t h => by rw [h]
  cases o with
  | ok a => exact ⟨.ok a, by simp, fun n t h => by rw [h]⟩
  | err e => exact ⟨.panic p, by simp, fun n t h => by rw [h]⟩
  | panic q => exact ⟨.panic q, by simp, fun n t h => by rw [h]⟩
  | exhausted => exact absurd rfl ho

theorem halts_ignoreErr {x : ℕ → Handler σ ε π Unit} (hx : Halts R L s x) :
    Halts R L s fun n => ignoreErr (x n) := by
  unfold ignoreErr
  refine halts_map hx (fun o ho => ?_) fun n t h => by rw [h]
  cases o with
  | ok a => exact ⟨.ok a, by simp, fun n t h => by rw [h]⟩
  | err e => exact ⟨.ok (), by simp, fun n t h => by rw [h]⟩
  | panic q => exact ⟨.panic q, by simp, fun n t h => by rw [h]⟩
  | exhausted => exact absurd rfl ho

end Lib.Handler
