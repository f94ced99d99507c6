import Mathlib.Data.List.Basic

/-!
# Runs of a partial step function

A machine is a step function `σ → α → Option σ`: `none` means that the action
is not enabled (a lock is held, a queue is empty, the code would fault). A run
is a list of actions, executed from the left. Safety statements about such a
machine have the form "in every run whose actions all meet `ok` in the state
they are taken from, the last state satisfies `Inv`"; since every prefix of a
run is a run, that covers every state on the way.

`Machine.invariant` is the induction behind all of them: one step lemma per
machine, and the run statement follows.
-/

namespace Machine

universe u v w

variable {σ : Type u} {α : Type v}

/-- Execute a list of actions from the left; `none` as soon as one of them is
not enabled. -/
def exec (step : σ → α → Option σ) : σ → List α → Option σ
  | s, [] => some s
  | s, a :: as => (step s a).bind fun s' => exec step s' as

/-- Every action of the run meets `ok` in the state it is taken from. -/
def Along (step : σ → α → Option σ) (ok : σ → α → Prop) : σ → List α → Prop
  | _, [] => True
  | s, a :: as => ok s a ∧ ∀ s', step s a = some s' → Along step ok s' as

variable {step : σ → α → Option σ} {ok : σ → α → Prop}

@[simp] theorem exec_nil (s : σ) : exec step s [] = some s := rfl

theorem exec_cons (s : σ) (a : α) (as : List α) :
    exec step s (a :: as) = (step s a).bind fun s' => exec step s' as := rfl

/-- Inversion: a run of `a :: as` is a step followed by a run of `as`. -/
theorem exec_cons_eq_some {s t : σ} {a : α} {as : List α}
    (h : exec step s (a :: as) = some t) :
    ∃ s', step s a = some s' ∧ exec step s' as = some t :=
  Option.bind_eq_some_iff.mp h

theorem exec_cons_of {s s' t : σ} {a : α} {as : List α} (hs : step s a = some s')
    (h : exec step s' as = some t) : exec step s (a :: as) = some t := by
  rw [exec_cons, hs]
  exact h

theorem along_cons_of {s s' : σ} {a : α} {as : List α} (ha : ok s a)
    (hs : step s a = some s') (h : Along step ok s' as) : Along step ok s (a :: as) := by
  refine ⟨ha, fun t ht => ?_⟩
  obtain rfl := Option.some.inj (hs.symm.trans ht)
  exact h

theorem exec_append (s : σ) (as bs : List α) :
    exec step s (as ++ bs) = (exec step s as).bind fun s' => exec step s' bs := by
  induction as generalizing s with
  | nil => rfl
  | cons a as ih =>
    rw [List.cons_append, exec_cons, exec_cons, Option.bind_assoc]
    exact congrArg _ (funext fun s' => ih s')

/-- Two runs one after the other. -/
theorem exec_append_of {s t u : σ} {as bs : List α} (h₁ : exec step s as = some t)
    (h₂ : exec step t bs = some u) : exec step s (as ++ bs) = some u := by
  rw [exec_append, h₁]
  exact h₂

/-- Inversion: a run that stops does so in its first step or after it. -/
theorem exec_cons_eq_none {s : σ} {a : α} {as : List α} (h : exec step s (a :: as) = none) :
    step s a = none ∨ ∃ s', step s a = some s' ∧ exec step s' as = none := by
  rw [exec_cons] at h
  cases hs : step s a with
  | none => exact Or.inl rfl
  | some s' =>
    rw [hs] at h
    exact Or.inr ⟨s', rfl, h⟩

/-- A machine that can always take a step can take any number of them. -/
theorem exists_exec (h : ∀ s a, ∃ s', step s a = some s') (s : σ) (as : List α) :
    ∃ t, exec step s as = some t := by
  induction as generalizing s with
  | nil => exact ⟨s, rfl⟩
  | cons a as ih =>
    obtain ⟨s', hs'⟩ := h s a
    obtain ⟨t, ht⟩ := ih s'
    exact ⟨t, exec_cons_of hs' ht⟩

/-- Inversion: a run of `as ++ bs` passes through a state between the two. -/
theorem exec_append_eq_some {s u : σ} {as bs : List α}
    (h : exec step s (as ++ bs) = some u) :
    ∃ t, exec step s as = some t ∧ exec step t bs = some u := by
  rw [exec_append] at h
  exact Option.bind_eq_some_iff.mp h

theorem along_append {s : σ} {as bs : List α} (h : Along step ok s (as ++ bs)) :
    Along step ok s as ∧ ∀ t, exec step s as = some t → Along step ok t bs := by
  induction as generalizing s with
  | nil =>
    refine ⟨trivial, fun t ht => ?_⟩
    obtain rfl := Option.some.inj ht
    exact h
  | cons a as ih =>
    obtain ⟨ha, hrest⟩ := h
    refine ⟨⟨ha, fun s' hs' => (ih (hrest s' hs')).1⟩, fun t ht => ?_⟩
    obtain ⟨s', hs', ht'⟩ := exec_cons_eq_some ht
    exact (ih (hrest s' hs')).2 t ht'

theorem along_append_of {s : σ} {as bs : List α} (has : Along step ok s as)
    (hbs : ∀ t, exec step s as = some t → Along step ok t bs) : Along step ok s (as ++ bs) := by
  induction as generalizing s with
  | nil => exact hbs s rfl
  | cons a as ih =>
    obtain ⟨ha, hrest⟩ := has
    refine ⟨ha, fun s' hs' => ih (hrest s' hs') fun t ht => hbs t ?_⟩
    exact exec_cons_of hs' ht

/-- Whether the actions of a run are good is found out by taking them. -/
instance decidableAlong [h : ∀ s a, Decidable (ok s a)] :
    ∀ (s : σ) (as : List α), Decidable (Along step ok s as)
  | _, [] => .isTrue trivial
  | s, a :: as =>
    match h s a, hs : step s a with
    | .isFalse ha, _ => .isFalse fun hok => ha hok.1
    | .isTrue ha, none => .isTrue ⟨ha, fun t ht => absurd (hs.symm.trans ht) (Option.some_ne_none t).symm⟩
    | .isTrue ha, some t =>
      match decidableAlong t as with
      | .isTrue has => .isTrue (along_cons_of ha hs has)
      | .isFalse has => .isFalse fun hok => has (hok.2 t hs)

/-- A run of actions that are always good. -/
theorem along_of_forall {s : σ} {as : List α} (h : ∀ a ∈ as, ∀ s, ok s a) :
    Along step ok s as := by
  induction as generalizing s with
  | nil => trivial
  | cons a as ih =>
    exact ⟨h a List.mem_cons_self s, fun s' _ => ih fun b hb => h b (List.mem_cons_of_mem _ hb)⟩

/-- A run of good actions, with the state it ends in. -/
structure Runs (step : σ → α → Option σ) (ok : σ → α → Prop) (s : σ) (as : List α) (t : σ) :
    Prop where
  exec : Machine.exec step s as = some t
  along : Along step ok s as

theorem Runs.nil (s : σ) : Runs step ok s [] s := ⟨rfl, trivial⟩

theorem Runs.cons {s s' t : σ} {a : α} {as : List α} (ha : ok s a) (hs : step s a = some s')
    (h : Runs step ok s' as t) : Runs step ok s (a :: as) t :=
  ⟨exec_cons_of hs h.exec, along_cons_of ha hs h.along⟩

theorem Runs.append {s t u : σ} {as bs : List α} (h : Runs step ok s as t)
    (h' : Runs step ok t bs u) : Runs step ok s (as ++ bs) u := by
  refine ⟨exec_append_of h.exec h'.exec, along_append_of h.along fun t' ht' => ?_⟩
  obtain rfl := Option.some.inj (h.exec.symm.trans ht')
  exact h'.along

/-- A property that holds at the start of a run and not at its end is lost in some step. -/
theorem exists_step_of_lost {P : σ → Prop} {s t : σ} {as : List α}
    (hrun : exec step s as = some t) (hs : P s) (ht : ¬P t) :
    ∃ bs a cs u v, as = bs ++ a :: cs ∧ exec step s bs = some u ∧ step u a = some v ∧ P u ∧ ¬P v := by
  induction as generalizing s with
  | nil =>
    obtain rfl := Option.some.inj hrun
    exact absurd hs ht
  | cons a as ih =>
    obtain ⟨s', hs', hrun'⟩ := exec_cons_eq_some hrun
    rcases Classical.em (P s') with hkept | hlost
    · obtain ⟨bs, b, cs, u, v, rfl, hu, huv⟩ := ih hrun' hkept
      exact ⟨a :: bs, b, cs, u, v, rfl, exec_cons_of hs' hu, huv⟩
    · exact ⟨[], a, as, s, s', rfl, rfl, hs', hs, hlost⟩

/-- **The invariant rule.** What every good step preserves, every good run
preserves. -/
theorem invariant {Inv : σ → Prop}
    (hstep : ∀ s a s', Inv s → ok s a → step s a = some s' → Inv s')
    {s t : σ} {as : List α} (h₀ : Inv s) (hok : Along step ok s as)
    (hrun : exec step s as = some t) : Inv t := by
  induction as generalizing s with
  | nil =>
    obtain rfl := Option.some.inj hrun
    exact h₀
  | cons a as ih =>
    obtain ⟨s', hs', ht⟩ := exec_cons_eq_some hrun
    obtain ⟨ha, hrest⟩ := hok
    exact ih (hstep s a s' h₀ ha hs') (hrest s' hs') ht

/-- The invariant rule when every enabled step is good. -/
theorem invariant_of_all {Inv : σ → Prop}
    (hstep : ∀ s a s', Inv s → step s a = some s' → Inv s')
    {s t : σ} {as : List α} (h₀ : Inv s) (hrun : exec step s as = some t) : Inv t := by
  induction as generalizing s with
  | nil =>
    obtain rfl := Option.some.inj hrun
    exact h₀
  | cons a as ih =>
    obtain ⟨s', hs', ht⟩ := exec_cons_eq_some hrun
    exact ih (hstep s a s' h₀ hs') ht

/-- What an invariant gives for every good step holds of the steps of every good run. -/
theorem along_of_invariant {Inv : σ → Prop} {good : σ → α → Prop}
    (hstep : ∀ s a s', Inv s → ok s a → step s a = some s' → Inv s')
    (hgood : ∀ s a, Inv s → ok s a → good s a) {s : σ} {as : List α} (h₀ : Inv s)
    (hok : Along step ok s as) : Along step good s as := by
  induction as generalizing s with
  | nil => trivial
  | cons a as ih =>
    obtain ⟨ha, hrest⟩ := hok
    exact ⟨hgood s a h₀ ha, fun s' hs' => ih (hstep s a s' h₀ ha hs') (hrest s' hs')⟩

/-- **The simulation rule.** If every good step follows `f`, a good run ends where the fold of `f` over
its actions does. -/
theorem foldl_of_step {β : Type w} {R : σ → β → Prop} {f : β → α → β}
    (hstep : ∀ s b a s', R s b → ok s a → step s a = some s' → R s' (f b a))
    {s t : σ} {b : β} {as : List α} (h₀ : R s b) (hok : Along step ok s as)
    (hrun : exec step s as = some t) : R t (as.foldl f b) := by
  induction as generalizing s b with
  | nil =>
    obtain rfl := Option.some.inj hrun
    exact h₀
  | cons a as ih =>
    obtain ⟨s', hs', ht⟩ := exec_cons_eq_some hrun
    obtain ⟨ha, hrest⟩ := hok
    exact ih (hstep s b a s' h₀ ha hs') (hrest s' hs') ht

/-- **The exact condition.** If a property survives exactly the good steps, then it holds all along
a run exactly if all steps of the run are good. -/
theorem always_iff_along {Inv P : σ → Prop}
    (hinv : ∀ s a s', Inv s → step s a = some s' → Inv s')
    (hstep : ∀ s a s', Inv s → P s → step s a = some s' → (P s' ↔ ok s a))
    (hstuck : ∀ s a, step s a = none → ok s a) {s : σ} (h₀ : Inv s) (hs : P s) (as : List α) :
    (∀ bs t, bs <+: as → exec step s bs = some t → P t) ↔ Along step ok s as := by
  induction as generalizing s with
  | nil =>
    refine iff_of_true (fun bs t hbs ht => ?_) trivial
    rw [List.prefix_nil.mp hbs] at ht
    exact Option.some.inj ht ▸ hs
  | cons a as ih =>
    cases hnext : step s a with
    | none =>
      refine iff_of_true (fun bs t hbs ht => ?_) ⟨hstuck s a hnext, fun s' hs' => ?_⟩
      · rcases List.prefix_cons_iff.mp hbs with rfl | ⟨cs, rfl, -⟩
        · exact Option.some.inj ht ▸ hs
        · rw [exec_cons, hnext] at ht
          cases ht
      · rw [hnext] at hs'
        cases hs'
    | some s' =>
      have hiff := hstep s a s' h₀ hs hnext
      have hrest := ih (hinv s a s' h₀ hnext)
      constructor
      · intro hall
        have hs' : P s' := hall [a] s' (List.prefix_append [a] as) (exec_cons_of hnext rfl)
        refine along_cons_of (hiff.mp hs') hnext ((hrest hs').mp fun bs t hbs ht => ?_)
        exact hall (a :: bs) t (List.cons_prefix_cons.mpr ⟨rfl, hbs⟩) (exec_cons_of hnext ht)
      · rintro ⟨ha, halong⟩ bs t hbs ht
        have hs' : P s' := hiff.mpr ha
        rcases List.prefix_cons_iff.mp hbs with rfl | ⟨cs, rfl, hcs⟩
        · exact Option.some.inj ht ▸ hs
        · obtain ⟨u, hu, hut⟩ := exec_cons_eq_some ht
          obtain rfl := Option.some.inj (hnext.symm.trans hu)
          exact (hrest hs').mpr (halong s' hnext) cs t hcs hut

/-- **Leaving out actions.** Two runs stay related if the second leaves out the actions that change
nothing of what the relation is about, and follows the others. -/
theorem exec_filter {R : σ → σ → Prop} {p : α → Bool}
    (hkept : ∀ s s' a t, R s s' → ok s a → p a = true → step s a = some t →
      ∃ t', step s' a = some t' ∧ R t t')
    (hleft : ∀ s s' a t, R s s' → ok s a → p a = false → step s a = some t → R t s')
    {s s' t : σ} {as : List α} (h : R s s') (hok : Along step ok s as)
    (hrun : exec step s as = some t) : ∃ t', exec step s' (as.filter p) = some t' ∧ R t t' := by
  induction as generalizing s s' with
  | nil =>
    obtain rfl := Option.some.inj hrun
    exact ⟨s', rfl, h⟩
  | cons a as ih =>
    obtain ⟨u, hu, ht⟩ := exec_cons_eq_some hrun
    obtain ⟨ha, hrest⟩ := hok
    cases hp : p a with
    | true =>
      obtain ⟨u', hu', hR⟩ := hkept s s' a u h ha hp hu
      obtain ⟨t', hexec, hR'⟩ := ih hR (hrest u hu) ht
      rw [List.filter_cons_of_pos hp]
      exact ⟨t', exec_cons_of hu' hexec, hR'⟩
    | false =>
      rw [List.filter_cons_of_neg (by rw [hp]; exact Bool.false_ne_true)]
      exact ih (hleft s s' a u h ha hp hu) (hrest u hu) ht

/-- **Two machines in step.** A machine that can do what another one does can do its runs. -/
theorem exec_sim {τ : Type w} {step' : τ → α → Option τ} {R : σ → τ → Prop}
    (hstep : ∀ s t a t', R s t → step' t a = some t' → ∃ s', step s a = some s' ∧ R s' t')
    {s : σ} {t t' : τ} {as : List α} (h : R s t) (hrun : exec step' t as = some t') :
    ∃ s', exec step s as = some s' ∧ R s' t' := by
  induction as generalizing s t with
  | nil =>
    obtain rfl := Option.some.inj hrun
    exact ⟨s, rfl, h⟩
  | cons a as ih =>
    obtain ⟨u, hu, hrest⟩ := exec_cons_eq_some hrun
    obtain ⟨v, hv, hR⟩ := hstep s t a u h hu
    obtain ⟨s', hs', hR'⟩ := ih hR hrest
    exact ⟨s', exec_cons_of hv hs', hR'⟩

/-- **Two machines.** What one machine does is seen by another as far as `φ` translates it, and the
relation between the states is kept. -/
theorem exec_filterMap {τ : Type w} {β : Type v} {step' : τ → β → Option τ} {φ : α → Option β}
    {R : σ → τ → Prop}
    (hseen : ∀ s t a b s', R s t → ok s a → φ a = some b → step s a = some s' →
      ∃ t', step' t b = some t' ∧ R s' t')
    (hunseen : ∀ s t a s', R s t → ok s a → φ a = none → step s a = some s' → R s' t)
    {s s' : σ} {t : τ} {as : List α} (h : R s t) (hok : Along step ok s as)
    (hrun : exec step s as = some s') : ∃ t', exec step' t (as.filterMap φ) = some t' ∧ R s' t' := by
  induction as generalizing s t with
  | nil =>
    obtain rfl := Option.some.inj hrun
    exact ⟨t, rfl, h⟩
  | cons a as ih =>
    obtain ⟨u, hu, hrest⟩ := exec_cons_eq_some hrun
    obtain ⟨ha, halong⟩ := hok
    cases hφ : φ a with
    | none =>
      rw [List.filterMap_cons_none hφ]
      exact ih (hunseen s t a u h ha hφ hu) (halong u hu) hrest
    | some b =>
      obtain ⟨v, hv, hR⟩ := hseen s t a b u h ha hφ hu
      obtain ⟨t', ht', hR'⟩ := ih hR (halong u hu) hrest
      rw [List.filterMap_cons_some hφ]
      exact ⟨t', exec_cons_of hv ht', hR'⟩

end Machine
