import Mathlib.Data.List.Basic

/-! Runs of a partial step function.

`step s e` is the state after event `e`, or `none` where `e` cannot happen. A run
is a list of events each of which is possible where it comes. An invariant speaks
of the events so far and of the state they lead to; what every step preserves
holds after every run (`run_history`), also when the steps of the run are
restricted to events that satisfy a rule. A finer system that does nothing on the
side but what another one does has its runs (`run_simulation`). -/
namespace Zizq.Data.Transition
universe u v
variable {σ : Type u} {ε : Type v} {step : σ → ε → Option σ}

def run (step : σ → ε → Option σ) (s : σ) : List ε → Option σ
  | [] => some s
  | e :: es => (step s e).bind fun s' => run step s' es

@[simp] theorem run_nil (s : σ) : run step s [] = some s := rfl

theorem run_cons_eq_some {s t : σ} {e : ε} {es : List ε} :
    run step s (e :: es) = some t ↔ ∃ s', step s e = some s' ∧ run step s' es = some t :=
  Option.bind_eq_some_iff

theorem run_append_eq_some {s t : σ} {es es' : List ε} :
    run step s (es ++ es') = some t ↔ ∃ s', run step s es = some s' ∧ run step s' es' = some t := by
  induction es generalizing s with
  | nil => simp
  | cons e es ih =>
    simp only [List.cons_append, run_cons_eq_some, ih]
    constructor
    · rintro ⟨s₁, h₁, s₂, h₂, h₃⟩
      exact ⟨s₂, ⟨s₁, h₁, h₂⟩, h₃⟩
    · rintro ⟨s₂, ⟨s₁, h₁, h₂⟩, h₃⟩
      exact ⟨s₁, h₁, s₂, h₂, h₃⟩

/-- What every step allowed by `rule` preserves, every run of allowed steps preserves. -/
theorem run_history {I : List ε → σ → Prop} {rule : ε → Prop}
    (hstep : ∀ h s e s', rule e → I h s → step s e = some s' → I (h ++ [e]) s') {s t : σ}
    {h es : List ε} (hr : run step s es = some t) (hrule : ∀ e ∈ es, rule e) (hs : I h s) :
    I (h ++ es) t := by
  induction es generalizing s h with
  | nil =>
    rw [List.append_nil]
    exact Option.some.inj hr ▸ hs
  | cons e es ih =>
    obtain ⟨s', he, hrest⟩ := run_cons_eq_some.mp hr
    obtain ⟨hhead, htail⟩ := List.forall_mem_cons.mp hrule
    have := ih hrest htail (hstep h s e s' hhead hs he)
    rwa [List.append_assoc, List.singleton_append] at this

theorem run_invariant {I : σ → Prop} (hstep : ∀ s e s', I s → step s e = some s' → I s')
    {s t : σ} {es : List ε} (hr : run step s es = some t) (hs : I s) : I t := by
  have hstep' : ∀ (_ : List ε) s e s', True → I s → step s e = some s' → I s' :=
    fun _ s e s' _ => hstep s e s'
  exact run_history (I := fun _ => I) (h := []) hstep' hr (fun _ _ => trivial) hs

/-- An event that an invariant excludes is in no run. -/
theorem run_never {I : σ → Prop} {e₀ : ε} {s t : σ} {es : List ε} (hr : run step s es = some t)
    (hs : I s) (hstep : ∀ s e s', I s → step s e = some s' → I s')
    (hnone : ∀ s, I s → step s e₀ = none) : e₀ ∉ es := by
  induction es generalizing s with
  | nil => exact List.not_mem_nil
  | cons e es ih =>
    obtain ⟨s', he, hrest⟩ := run_cons_eq_some.mp hr
    refine List.not_mem_cons_of_ne_of_not_mem (fun heq => ?_) (ih hrest (hstep s e s' hs he))
    subst heq
    rw [hnone s hs] at he
    cases he

/-- Where `abs` maps every step to a step of the other system, or to none at all if its event is not
`visible` there, it maps every run to a run. -/
theorem run_simulation {σ' : Type*} {ε' : Type*} {step' : σ' → ε' → Option σ'} {abs : σ → σ'}
    {visible : ε → Option ε'}
    (hstep : ∀ s e s', step s e = some s' →
      run step' (abs s) (visible e).toList = some (abs s'))
    {s t : σ} {es : List ε} (hr : run step s es = some t) :
    run step' (abs s) (es.filterMap visible) = some (abs t) := by
  induction es generalizing s with
  | nil => exact congrArg (some ∘ abs) (Option.some.inj hr)
  | cons e es ih =>
    obtain ⟨s', he, hrest⟩ := run_cons_eq_some.mp hr
    have hcons : (e :: es).filterMap visible = (visible e).toList ++ es.filterMap visible := by
      rw [List.filterMap_cons]
      cases visible e <;> rfl
    rw [hcons]
    exact run_append_eq_some.mpr ⟨abs s', hstep s e s' he, ih hrest⟩

end Zizq.Data.Transition
